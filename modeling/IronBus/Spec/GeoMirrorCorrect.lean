import IronBus.Spec.ContentCorrect
import IronBus.Spec.GeoCursorCorrect

/-!
# A mirror holds a front part of every origin's records

Three things tell a mirror which frames of a pull it already has: the origin's cursor, the length of
the log when there is one origin, and the positions in memory, read from the marker at the end of
the log after a restart, when there are several. The last are brought up to date when a marker is
written, so they fall behind when an append is refused in the middle of a batch, and are lost when
a crash leaves a log that ends in a record of an origin. Unless a marker was refused, only records
that were not synced can end the log so. A record keeps everything but its subject.

## Key results

- `writeHwmMarker_spec`: a marker makes the positions in memory exact
- `applyRun_spec`: what a walk over the frames of a pull appends, wherever it stops
- `syncWithHwmMarker_spec`: what is synced ends in a marker
- `readDurableHwm_spec`: a log that ends in a marker says how far each origin has come
- `local_follows_origins`: every run keeps front parts of the origins
-/

namespace IronBus

namespace GeoMirror

open Codec MirrorApplier List Function CursorMap

/-- The origins that feed a mirror. -/
structure Origins where
  keys : List OriginKey
  few : keys.length < 2 ^ 32
  utf8 : ∀ k ∈ keys, k.validUtf8 = true
  short : ∀ k ∈ keys, k.length < 2 ^ 16

/-! ## Records by origin -/

/-- The records of a local log that were pulled from an origin. -/
def ofOrigin (k : OriginKey) (rs : List GeoRecord) : List Content :=
  (rs.filter (·.origin = some k)).map (·.content)

/-- The records of a local log that are durable. -/
def durableRecords (log : RecordLog GeoRecord) : List GeoRecord := log.records.take log.durable

@[simp] theorem ofOrigin_append (k : OriginKey) (rs ts : List GeoRecord) :
    ofOrigin k (rs ++ ts) = ofOrigin k rs ++ ofOrigin k ts := by
  simp [ofOrigin]

@[simp] theorem ofOrigin_own (k : OriginKey) (c : Content) : ofOrigin k [⟨c, some k⟩] = [c] := by
  simp [ofOrigin]

theorem ofOrigin_other {k : OriginKey} {r : GeoRecord} (h : r.origin ≠ some k) :
    ofOrigin k [r] = [] := by
  simp [ofOrigin, h]

@[simp] theorem ofOrigin_marker (k : OriginKey) (m : CursorMap) (now : Nat) :
    ofOrigin k [hwmMarker m now] = [] := ofOrigin_other nofun

theorem ofOrigin_isPrefix (k : OriginKey) {rs ts : List GeoRecord} (h : rs <+: ts) :
    ofOrigin k rs <+: ofOrigin k ts := by
  obtain ⟨rest, rfl⟩ := h
  rw [ofOrigin_append]
  exact prefix_append _ _

/-- A list that is split at a record of its extension by one is split there itself, or the record is
the new one. -/
theorem split_concat {rs before after : List GeoRecord} {r t : GeoRecord}
    (h : rs ++ [t] = before ++ r :: after) :
    (before = rs ∧ r = t) ∨ ∃ after', rs = before ++ r :: after' := by
  rcases eq_nil_or_concat after with rfl | ⟨after', x, rfl⟩
  · obtain ⟨hrs, hr⟩ := append_inj' h rfl
    exact .inl ⟨hrs.symm, (singleton_inj.mp hr).symm⟩
  · rw [concat_eq_append, ← cons_append, ← append_assoc] at h
    exact .inr ⟨after', (append_inj' h rfl).1⟩

/-- A front part that the next element continues. -/
theorem concat_isPrefix {cs ds : List Content} {c : Content} (h : cs <+: ds)
    (hc : ds[cs.length]? = some c) : cs ++ [c] <+: ds := by
  obtain ⟨rest, rfl⟩ := h
  rw [getElem?_append_right le_rfl, Nat.sub_self] at hc
  cases rest with
  | nil => simp at hc
  | cons d rest =>
    simp only [getElem?_cons_zero, Option.some.injEq] at hc
    rw [hc, prefix_append_right_inj]
    exact ⟨rest, rfl⟩

/-- How many records of an origin the local log has. -/
def count (key : OriginKey) (a : MirrorApplier) : Nat := (ofOrigin key a.log.records).length

/-- Records that end in a marker, if there are any. -/
def Marked (rs : List GeoRecord) : Prop := ∀ r, rs.getLast? = some r → r.origin = none

theorem Marked.concat (rs : List GeoRecord) (m : CursorMap) (now : Nat) :
    Marked (rs ++ [hwmMarker m now]) := by
  intro r hr
  rw [getLast?_concat] at hr
  cases hr
  rfl

/-- The storage does not refuse a record that comes behind others of its batch, unless a marker was
tried first. -/
def GeoIo.Steady (io : GeoIo) : Prop :=
  ∀ r ∈ io.records.tail, r.atCap = true ∨ r.append.fault ≠ some .refuse

/-- The storage may refuse a marker. -/
def refusesMarker (io : GeoIo) : Bool :=
  io.marker.fault == some .refuse || io.records.any (·.marker.fault == some .refuse)

/-- The payloads of the cursor checkpoint that a restart can find. -/
def found (s : OriginCursorStore) : List Bytes := s.written.toList ++ s.issued

/-- The parts of an applier that a walk leaves alone, and its log. -/
structure Frame (a a' : MirrorApplier) : Prop where
  cursors : a'.cursors = a.cursors
  single : a'.singleOrigin = a.singleOrigin
  log : a.log.Extends a'.log

theorem Frame.refl (a : MirrorApplier) : Frame a a := ⟨rfl, rfl, .refl _⟩

theorem Frame.trans {a b c : MirrorApplier} (h : Frame a b) (h' : Frame b c) : Frame a c :=
  ⟨h'.cursors.trans h.cursors, h'.single.trans h.single, h.log.trans h'.log⟩

/-- What is durable stays. -/
theorem durableRecords_isPrefix {l l' : RecordLog GeoRecord} (h : l.Extends l') :
    durableRecords l <+: durableRecords l' := by
  obtain ⟨rest, hrest⟩ := h.records
  have htake : durableRecords l = l'.records.take l.durable := by
    rw [durableRecords, ← hrest, take_append_of_le_length l.durable_le]
  rw [htake]
  exact take_prefix_take_left h.durable

/-- A crash keeps what is durable. -/
theorem durableRecords_crash (l : RecordLog GeoRecord) (survivors : Nat) :
    durableRecords (l.crash survivors) = durableRecords l := by
  rw [durableRecords, durableRecords, RecordLog.crash, take_take,
    min_eq_left (le_max_left _ _)]

/-- What is durable ends in a marker, as long as only logs that end in one are synced. -/
theorem Marked.of_durable {l l' : RecordLog GeoRecord} (hrec : l'.records = l.records)
    (hdur : l'.durable = l.durable ∨ l'.durable = l.records.length ∧ l.frozen = false)
    (h : Marked (durableRecords l)) (hall : l.frozen = false → Marked l.records) :
    Marked (durableRecords l') := by
  rcases hdur with hsame | ⟨hfull, hfree⟩
  · rw [durableRecords, hrec, hsame]
    exact h
  · rw [durableRecords, hrec, hfull, take_length]
    exact hall hfree

/-- The position in memory of an origin is exact, and the log ends in a marker while it is clean. -/
def Exact (clean : Prop) (key : OriginKey) (a : MirrorApplier) : Prop :=
  a.singleOrigin = false → a.log.frozen = false →
    (∀ m, a.originHwm = some m → m.at key = count key a) ∧ (clean → Marked a.log.records)

/-- A change of the log that keeps its records leaves a position exact. -/
theorem Exact.relog {clean : Prop} {key : OriginKey} {a : MirrorApplier} (h : Exact clean key a)
    {log : RecordLog GeoRecord}
    (hrec : log.records = a.log.records) (hfrozen : log.frozen = false → a.log.frozen = false) :
    Exact clean key { a with log := log } := by
  intro hs hf
  simp only [count, hrec]
  exact h hs (hfrozen hf)

section Runs

variable [Checksums]

/-- A local log with its cursors, the records of each origin, and whether a marker may have been
refused. -/
structure World where
  logs : OriginKey → List Stored
  applier : MirrorApplier
  refused : Bool

/-- The contents of an origin's records. -/
def contents (ss : List Stored) : List Content := ss.map (·.frame.content)

/-- The frames of a response that pass their checks are those of the origin at the offsets it
names. -/
def Carries (origin : List Stored) (resp : MirrorPullResponse) : Prop :=
  frames resp.frameBytes <+: (origin.drop resp.firstOffset).map Stored.frame

inductive Step (o : Origins) : World → World → Prop where
  | produce {w : World} (key : OriginKey) (s : Stored) (hsubject : s.frame.subject = [])
    (htag : s.frame.streamTag = []) (hroom : (w.logs key).length < u64Max) :
    Step o w { w with logs := update w.logs key (w.logs key ++ [s]) }
  | pull {w : World} (key : OriginKey) (resp : MirrorPullResponse) (io : GeoIo)
    (hkey : key ∈ o.keys)
    (hcarries : Carries (w.logs key) resp)
    (hsteady : w.applier.singleOrigin = false → GeoIo.Steady io) :
    Step o w { w with
      applier := (w.applier.applyPullResponse io key resp).2
      refused := w.refused || refusesMarker io }
  | crash {w : World} (survivors : Nat) (payload : Option Bytes) (cursors : OriginCursorStore)
    (hpayload : payload = w.applier.cursors.written
      ∨ ∃ b ∈ w.applier.cursors.issued, payload = some b)
    (hopen : OriginCursorStore.reopen payload = some cursors)
    -- nothing is asked of what was synced, unless a marker was refused
    (hmarked : w.applier.singleOrigin = false →
      w.refused = true ∨ w.applier.log.durable < survivors →
      Marked (w.applier.log.crash survivors).records) :
    Step o w { w with
      applier := .new (w.applier.log.crash survivors) cursors w.applier.singleOrigin }

def Reach (o : Origins) : World → World → Prop := Relation.ReflTransGen (Step o)

/-- A new mirror of origins without records. -/
def World.start (o : Origins) : World :=
  ⟨fun _ => [], .new .empty .new (o.keys.length == 1), false⟩

/-! ## Maps and records of known origins -/

/-- The positions of known origins, none behind its end. -/
structure Fits (o : Origins) (logs : OriginKey → List Stored) (m : CursorMap) : Prop where
  known : ∀ k v, m.lookup k = some v → k ∈ o.keys
  within : ∀ k, m.at k ≤ (logs k).length

variable {o : Origins} {logs : OriginKey → List Stored}
  {m : CursorMap} {rs ts : List GeoRecord} {c : Content} {n : Nat} {s : OriginCursorStore}
  {clean : Prop}

theorem Fits.empty : Fits o logs ∅ := ⟨nofun, fun _ => Nat.zero_le _⟩

theorem Fits.insert (h : Fits o logs m) {key : OriginKey} (hkey : key ∈ o.keys) {v : Nat}
    (hv : v ≤ (logs key).length) : Fits o logs (m.insert key v) := by
  refine ⟨fun k v' hlook => ?_, fun k => ?_⟩
  · by_cases hk : k = key
    · exact hk ▸ hkey
    · rw [AList.lookup_insert_ne hk] at hlook
      exact h.known k v' hlook
  · by_cases hk : k = key
    · rw [hk, at_insert_self]
      exact hv
    · rw [at_insert_ne m v hk]
      exact h.within k

theorem Fits.size_le (h : Fits o logs m) : m.size ≤ o.keys.length := by
  rw [Assoc.size_eq_keys_length]
  refine (subperm_of_subset (AList.keys_nodup m) fun k hk => ?_).length_le
  obtain ⟨v, hv⟩ := Option.isSome_iff_exists.mp
    (AList.lookup_isSome.mpr (AList.mem_keys.mpr hk))
  exact h.known k v hv

/-- Such a map is read back from its payload. -/
theorem Fits.readable (h : Fits o logs m) (hroom : ∀ k, (logs k).length ≤ u64Max) :
    ∃ m', decodeCursorPayload (encodeCursorPayload m) = some m'
      ∧ ∀ k, m'.lookup k = m.lookup k := by
  refine CursorMap.decode_encode (h.size_le.trans_lt o.few) fun k v hlook => ?_
  have hk := h.known k v hlook
  have hv : v ≤ (logs k).length := by
    have := h.within k
    rwa [CursorMap.at, hlook] at this
  have := hroom k
  exact ⟨o.short k hk, o.utf8 k hk, by simp only [u64Max] at this; omega⟩

/-- A map with the same entries fits as well. -/
theorem Fits.congr {m' : CursorMap} (h : Fits o logs m) (heq : ∀ k, m'.lookup k = m.lookup k) :
    Fits o logs m' :=
  ⟨fun k v hlook => h.known k v (heq k ▸ hlook), fun k => by
    rw [CursorMap.at, heq k]
    exact h.within k⟩

/-- The records of each origin are a front part of its log, and every marker says how many records
of each origin are before it. -/
structure Book (o : Origins) (logs : OriginKey → List Stored) (rs : List GeoRecord) : Prop where
  front : ∀ k, ofOrigin k rs <+: contents (logs k)
  marker : ∀ before r after, rs = before ++ r :: after → r.origin = none →
    ∃ m now, r = hwmMarker m now ∧ Fits o logs m ∧ ∀ k, m.at k = (ofOrigin k before).length

theorem Book.nil : Book o logs [] :=
  ⟨fun _ => nil_prefix, fun before r after h => by simp at h⟩

theorem Book.of_isPrefix (h : Book o logs ts) (hfront : rs <+: ts) :
    Book o logs rs := by
  refine ⟨fun k => (ofOrigin_isPrefix k hfront).trans (h.front k), fun before r after heq => ?_⟩
  obtain ⟨rest, rfl⟩ := hfront
  exact h.marker before r (after ++ rest) (by rw [heq]; simp)

/-- The next record of an origin continues the log. -/
theorem Book.push_record (h : Book o logs rs) {key : OriginKey}
    (hc : (contents (logs key))[(ofOrigin key rs).length]? = some c) :
    Book o logs (rs ++ [⟨c, some key⟩]) := by
  refine ⟨fun k => ?_, fun before r after heq hnone => ?_⟩
  · rw [ofOrigin_append]
    by_cases hk : k = key
    · rw [hk, ofOrigin_own]
      exact concat_isPrefix (h.front key) hc
    · rw [ofOrigin_other (fun h => hk (Option.some.inj h).symm), append_nil]
      exact h.front k
  · rcases split_concat heq with ⟨-, rfl⟩ | ⟨after', heq'⟩
    · exact nomatch hnone
    · exact h.marker before r after' heq' hnone

/-- So does a marker with the positions the log has come to. -/
theorem Book.push_marker (h : Book o logs rs) (hm : Fits o logs m)
    (hat : ∀ k, m.at k = (ofOrigin k rs).length) (now : Nat) :
    Book o logs (rs ++ [hwmMarker m now]) := by
  refine ⟨fun k => ?_, fun before r after heq hnone => ?_⟩
  · rw [ofOrigin_append, ofOrigin_marker, append_nil]
    exact h.front k
  · rcases split_concat heq with ⟨rfl, rfl⟩ | ⟨after', heq'⟩
    · exact ⟨m, now, rfl, hm, hat⟩
    · exact h.marker before r after' heq' hnone

/-! ## One record -/

/-- What holds of an applier in the middle of a pull from an origin: the positions in memory of
the other origins are exact, that of the origin may be behind. -/
structure Ready (o : Origins) (logs : OriginKey → List Stored) (clean : Prop) (key : OriginKey)
    (a : MirrorApplier) : Prop where
  book : Book o logs a.log.records
  synced : a.singleOrigin = false → clean → Marked (durableRecords a.log)
  only : a.singleOrigin = true → ∀ r ∈ a.log.records, ∃ k ∈ o.keys, r.origin = some k
  hwm : a.singleOrigin = false → ∃ m, a.originHwm = some m ∧ Fits o logs m
    ∧ (a.log.frozen = false → m.at key ≤ count key a ∧ ∀ k, k ≠ key → m.at k = count k a)

/-- What the append of the record `n` of an origin leaves. Where it fails, a condition keeps the
position in memory exact. -/
structure Appends (o : Origins) (logs : OriginKey → List Stored) (clean : Prop) (key : OriginKey)
    (a : MirrorApplier) (n : Nat) (steady : Prop) (res : Bool × MirrorApplier) : Prop where
  frame : Frame a res.2
  ready : Ready o logs clean key res.2
  taken : res.1 = true → res.2.log.frozen = false ∧ count key res.2 = n + 1
  failed : res.1 = false → steady → Exact clean key res.2

variable {key : OriginKey} {a : MirrorApplier}

section

variable (h : Ready o logs clean key a)

include h

/-- A change of the log that keeps its records. -/
theorem Ready.relog {log : RecordLog GeoRecord}
    (hrec : log.records = a.log.records) (hfrozen : log.frozen = false → a.log.frozen = false)
    (hsynced : a.singleOrigin = false → clean → Marked (durableRecords log)) :
    Ready o logs clean key { a with log := log } := by
  refine ⟨by rw [hrec]; exact h.book, hsynced, fun hs => by rw [hrec]; exact h.only hs,
    fun hs => ?_⟩
  obtain ⟨m, hm, hfits, hat⟩ := h.hwm hs
  refine ⟨m, hm, hfits, fun hf => ?_⟩
  simp only [count, hrec]
  exact hat (hfrozen hf)

/-- What an append of the origin's next record does, whether the log may start a new segment or
not. -/
theorem append_spec (hkey : key ∈ o.keys) (io : AppendIo)
    (hrolls : a.singleOrigin = false → io.rolls = false)
    (hcount : a.log.frozen = false → count key a = n)
    (hnext : (contents (logs key))[n]? = some c) :
    let res := a.log.append io ⟨c, some key⟩
    Appends o logs clean key a n (Exact clean key a ∨ io.fault ≠ some .refuse)
      (res.1, { a with log := res.2 }) := by
  intro res
  obtain ⟨hrec, -⟩ := a.log.append_records io ⟨c, some key⟩
  have hext := a.log.append_extends io ⟨c, some key⟩
  change res.2.records = (if res.1 then _ else _) at hrec
  -- without a roll an append makes nothing durable behind the marker
  have hsynced : a.singleOrigin = false → clean → Marked (durableRecords res.2) := by
    intro hs hclean
    have hdur : res.2.durable = a.log.durable := RecordLog.append_durable (hrolls hs)
    obtain ⟨rest, hrest⟩ := hext.records
    rw [durableRecords, hdur, ← hrest, take_append_of_le_length a.log.durable_le]
    exact h.synced hs hclean
  have hunfrozen : res.2.frozen = false →
      a.log.frozen = false ∧ (res.1 = false → io.fault = some .refuse) :=
    RecordLog.append_unfrozen
  cases hres : res.1 with
  | true =>
    have hfree : res.2.frozen = false := RecordLog.append_ok hres
    have hfree' := (hunfrozen hfree).1
    rw [hres, if_pos rfl] at hrec
    -- one record more of its origin, none of the others
    have hadded : ∀ k, count k { a with log := res.2 }
        = count k a + (if k = key then 1 else 0) := by
      intro k
      simp only [count, hrec, ofOrigin_append, length_append]
      by_cases hk : k = key
      · rw [hk, ofOrigin_own, if_pos rfl, length_singleton]
      · rw [ofOrigin_other (fun h => hk (Option.some.inj h).symm), if_neg hk, length_nil]
    refine ⟨⟨rfl, rfl, hext⟩, ⟨?_, hsynced, fun hs r hr => ?_, fun hs => ?_⟩,
      fun _ => ⟨hfree, ?_⟩, nofun⟩
    · simp only [hrec]
      refine h.book.push_record ?_
      rwa [← count, hcount hfree']
    · simp only [hrec] at hr
      rcases mem_append.mp hr with hr | hr
      · exact h.only hs r hr
      · exact ⟨key, hkey, by rw [mem_singleton.mp hr]⟩
    · obtain ⟨m, hm, hfits, hat⟩ := h.hwm hs
      refine ⟨m, hm, hfits, fun _ => ?_⟩
      obtain ⟨hle, hother⟩ := hat hfree'
      refine ⟨by rw [hadded]; exact hle.trans (Nat.le_add_right _ _), fun k hk => ?_⟩
      rw [hadded, if_neg hk]
      exact hother k hk
    · rw [hadded, if_pos rfl, hcount hfree']
  | false =>
    rw [hres] at hrec
    have hrec' : res.2.records = a.log.records := hrec
    refine ⟨⟨rfl, rfl, hext⟩, h.relog hrec' (fun hf => (hunfrozen hf).1) hsynced, nofun,
      fun _ hor => ?_⟩
    rcases hor with hexact | hne
    · exact hexact.relog hrec' fun hf => (hunfrozen hf).1
    · exact fun _ hf => absurd ((hunfrozen hf).2 hres) hne

/-- What a marker does. The position it brings up to date is exact afterwards even if the log does
not take it. -/
theorem writeHwmMarker_spec (hkey : key ∈ o.keys)
    (hmulti : a.singleOrigin = false) (io : AppendIo) (hclean : clean → io.fault ≠ some .refuse)
    (now : Nat) (hn : n ≤ (logs key).length)
    (hcount : a.log.frozen = false → count key a = n) :
    let res := a.writeHwmMarker io now key n
    Frame a res.2 ∧ Ready o logs clean key res.2 ∧ Exact clean key res.2
      ∧ count key res.2 = count key a ∧ (res.2.log.frozen = false → a.log.frozen = false)
      ∧ (res.1 = true → res.2.log.frozen = false) := by
  intro res
  obtain ⟨m, hm, hfits, hat⟩ := h.hwm hmulti
  let m' := m.insert key (max (m.at key) n)
  have hfits' : Fits o logs m' := hfits.insert hkey (max_le (hfits.within key) hn)
  have hat' : a.log.frozen = false → ∀ k, CursorMap.at m' k = count k a := by
    intro hfree k
    obtain ⟨hle, hother⟩ := hat hfree
    by_cases hk : k = key
    · rw [hk, at_insert_self, ← hcount hfree]
      exact max_eq_right hle
    · rw [at_insert_ne m _ hk]
      exact hother k hk
  have hres : res = ((a.log.append { io with rolls := false } (hwmMarker m' now)).1,
      { a with
        originHwm := some m'
        log := (a.log.append { io with rolls := false } (hwmMarker m' now)).2 }) := by
    simp only [res, writeHwmMarker, hm, Option.getD_some, appendWithoutRoll, m']
  have hunfrozen := @RecordLog.append_unfrozen _ a.log { io with rolls := false } (hwmMarker m' now)
  have hok := @RecordLog.append_ok _ a.log { io with rolls := false } (hwmMarker m' now)
  have hext := a.log.append_extends { io with rolls := false } (hwmMarker m' now)
  have hdur : (a.log.append { io with rolls := false } (hwmMarker m' now)).2.durable
      = a.log.durable := RecordLog.append_durable rfl
  obtain ⟨hrec, -⟩ := a.log.append_records { io with rolls := false } (hwmMarker m' now)
  generalize a.log.append { io with rolls := false } (hwmMarker m' now) = app at *
  rw [hres]
  have hsame : ∀ k, ofOrigin k app.2.records = ofOrigin k a.log.records := by
    intro k
    rw [hrec]
    split
    · rw [ofOrigin_append, ofOrigin_marker, append_nil]
    · rfl
  have hcounts : ∀ k, (ofOrigin k app.2.records).length = count k a := fun k => by
    rw [hsame k, count]
  refine ⟨⟨rfl, rfl, hext⟩, ⟨?_, fun hs hc => ?_, fun hs => ?_, fun _ => ⟨m', rfl, hfits',
    fun hf => ?_⟩⟩, ?_, hcounts key, fun hf => (hunfrozen hf).1, hok⟩
  · rw [hrec]
    split_ifs with htaken
    · exact h.book.push_marker hfits' (hat' (hunfrozen (hok htaken)).1) now
    · exact h.book
  · obtain ⟨rest, hrest⟩ := hext.records
    simp only [durableRecords]
    rw [hdur, ← hrest, take_append_of_le_length a.log.durable_le]
    exact h.synced hs hc
  · rw [hmulti] at hs
    exact nomatch hs
  · have hall := hat' (hunfrozen hf).1
    simp only [count, hcounts]
    exact ⟨(hall key).le, fun k _ => hall k⟩
  · intro _ hf
    refine ⟨fun m'' hm'' => ?_, fun hc => ?_⟩
    · cases hm''
      simp only [count, hcounts]
      exact hat' (hunfrozen hf).1 key
    · -- it was not refused, and the log goes on: it was taken
      have htaken : app.1 = true := by
        by_contra hno
        exact hclean hc ((hunfrozen hf).2 (Bool.eq_false_iff.mpr hno))
      simp only [hrec, if_pos htaken]
      exact Marked.concat _ _ _

/-- A full segment is closed behind a marker, and the record starts the next one. -/
theorem appendOriginRecord_atCap (hkey : key ∈ o.keys) {io : GeoRecordIo} (now : Nat)
    (hclean : clean → io.marker.fault ≠ some .refuse)
    (hmulti : a.singleOrigin = false) (hfrozen : a.log.frozen = false) (hcap : io.atCap = true)
    (hn : n ≤ (logs key).length) (hcount : a.log.frozen = false → count key a = n)
    (hnext : (contents (logs key))[n]? = some c) :
    Appends o logs clean key a n True (a.appendOriginRecord io now key c n) := by
  obtain ⟨hframe, hready, hexact, hmcount, hmfree, -⟩ :=
    writeHwmMarker_spec h hkey hmulti io.marker hclean now hn hcount
  simp only [appendOriginRecord, hmulti, hfrozen, hcap, if_true, if_false, Bool.false_eq_true]
  generalize a.writeHwmMarker io.marker now key n = marked at *
  obtain ⟨_ | _, b⟩ := marked
  · exact ⟨hframe, hready, nofun, fun _ _ => hexact⟩
  obtain ⟨hsrec, hsdur⟩ := b.log.sealActive_spec io.sealing
  have hsfree := @RecordLog.sealActive_unfrozen _ b.log io.sealing
  have hsall := b.log.sealActive_durable io.sealing
  simp only at hframe hready hexact hmcount hmfree ⊢
  generalize b.log.sealActive io.sealing = sealed at *
  have hready' := hready.relog hsrec hsfree fun hs hc =>
    .of_durable hsrec hsall (hready.synced hs hc) fun hf => (hexact hs hf).2 hc
  have hexact' := hexact.relog hsrec hsfree
  have hframe' : Frame a { b with log := sealed.2 } :=
    hframe.trans ⟨rfl, rfl, ⟨hsrec ▸ prefix_rfl, hsdur⟩⟩
  obtain ⟨_ | _, log⟩ := sealed
  · exact ⟨hframe', hready', nofun, fun _ _ => hexact'⟩
  have hcount' : log.frozen = false → count key { b with log := log } = n := by
    intro hf
    have hsame : count key { b with log := log } = count key b := by
      simp only [count] at hsrec ⊢
      rw [hsrec]
    rw [hsame, hmcount]
    exact hcount (hmfree (hsfree hf))
  have happ := append_spec hready' hkey { io.append with rolls := false } (fun _ => rfl) hcount'
    hnext
  exact ⟨hframe'.trans happ.frame, happ.ready, happ.taken,
    fun hno _ => happ.failed hno (.inl hexact')⟩

/-- What the append of an origin's next record does to the applier. -/
theorem appendOriginRecord_spec (hkey : key ∈ o.keys) (io : GeoRecordIo)
    (hclean : clean → io.marker.fault ≠ some .refuse) (now : Nat)
    (hn : n ≤ (logs key).length) (hcount : a.log.frozen = false → count key a = n)
    (hnext : (contents (logs key))[n]? = some c) :
    Appends o logs clean key a n
      (Exact clean key a ∨ io.atCap = true ∨ io.append.fault ≠ some .refuse)
      (a.appendOriginRecord io now key c n) := by
  cases hsingle : a.singleOrigin with
  | true =>
    have happ := append_spec h hkey io.append
      (fun hs => absurd (hsingle.symm.trans hs) Bool.false_ne_true.symm) hcount hnext
    unfold appendOriginRecord
    rw [if_pos hsingle]
    exact ⟨happ.frame, happ.ready, happ.taken, fun _ _ hs => by simp [hsingle] at hs⟩
  | false =>
    cases hfrozen : a.log.frozen with
    | true =>
      simp only [appendOriginRecord, hsingle, hfrozen, if_true, Bool.false_eq_true, if_false]
      exact ⟨.refl a, h, nofun, fun _ _ _ hf => by simp [hfrozen] at hf⟩
    | false =>
      cases hcap : io.atCap with
      | false =>
        have happ := append_spec h hkey { io.append with rolls := false } (fun _ => rfl) hcount
          hnext
        simp only [appendOriginRecord, hsingle, hfrozen, hcap, Bool.false_eq_true, if_false]
        refine ⟨happ.frame, happ.ready, happ.taken, fun hno hor => happ.failed hno ?_⟩
        exact hor.imp_right fun hor => hor.resolve_left nofun
      | true =>
        have happ := appendOriginRecord_atCap h hkey now hclean hsingle hfrozen hcap hn hcount
          hnext
        exact ⟨happ.frame, happ.ready, happ.taken, fun hno _ => happ.failed hno trivial⟩

/-! ## One pull -/

omit h in
/-- What a walk over the frames of a pull appends. Wherever it stops, the positions in memory are
exact or the log is frozen. -/
theorem applyRun_spec (hkey : key ∈ o.keys) (now anchor : Nat) (fs : List DecodedFrame)
    (h : Ready o logs clean key a) (ios : List GeoRecordIo) (offset applied : Nat)
    (hfs : fs.map (·.view.appended) <+: (contents (logs key)).drop offset)
    (hoffset : offset ≤ (logs key).length)
    (hcount : a.log.frozen = false → count key a = max anchor offset)
    (hbehind : 0 < applied → anchor ≤ offset)
    (hexact : applied = 0 → Exact clean key a)
    (hsteady : a.singleOrigin = false → ∀ r ∈ (if applied = 0 then ios.tail else ios),
      r.atCap = true ∨ r.append.fault ≠ some .refuse)
    (hclean : clean → ∀ r ∈ ios, r.marker.fault ≠ some .refuse) :
    let res := applyRun now key anchor ios offset applied fs a
    Frame a res.2.2 ∧ Ready o logs clean key res.2.2
      ∧ (res.1 = false → Exact clean key res.2.2)
      ∧ (res.1 = true → (res.2.2.log.frozen = false →
          count key res.2.2 = max anchor (offset + fs.length))
        ∧ (0 < res.2.1 → anchor ≤ offset + fs.length)
        ∧ (res.2.1 = 0 → Exact clean key res.2.2)) := by
  induction fs generalizing a ios offset applied with
  | nil => exact ⟨.refl a, h, nofun, fun _ => ⟨hcount, hbehind, hexact⟩⟩
  | cons f fs ih =>
    have hnext : (contents (logs key))[offset]? = some f.view.appended := by
      obtain ⟨rest, hrest⟩ := hfs
      rw [← List.head?_drop, ← hrest]
      rfl
    have hlt : offset < (logs key).length := by
      have := (List.getElem?_eq_some_iff.mp hnext).1
      rwa [contents, List.length_map] at this
    have hrest : fs.map (·.view.appended) <+: (contents (logs key)).drop (offset + 1) := by
      have := hfs.drop 1
      rwa [List.drop_drop] at this
    have hlen : offset + (f :: fs).length = offset + 1 + fs.length := by
      rw [List.length_cons]
      omega
    rw [hlen, applyRun]
    by_cases hskip : offset < anchor
    · -- the log has this frame
      rw [if_pos hskip]
      refine ih h ios (offset + 1) applied hrest hlt (fun hf => ?_) (fun hpos => ?_) hexact hsteady
        hclean
      · rw [hcount hf]
        omega
      · have := hbehind hpos
        omega
    · rw [if_neg hskip]
      have hhead : clean → (ios.head?.getD .ok).marker.fault ≠ some .refuse := by
        intro hc
        cases ios with
        | nil => exact nofun
        | cons io ios => exact hclean hc io mem_cons_self
      obtain ⟨hframe, hready, hok, hfail⟩ := appendOriginRecord_spec h hkey (ios.head?.getD .ok)
        hhead now hoffset (fun hf => (hcount hf).trans (by omega)) hnext
      generalize a.appendOriginRecord (ios.head?.getD .ok) now key f.view.appended offset = res at *
      obtain ⟨_ | _, b⟩ := res
      · refine ⟨hframe, hready, fun _ => hfail rfl ?_, nofun⟩
        by_cases hzero : applied = 0
        · exact .inl (hexact hzero)
        · by_cases hmulti : a.singleOrigin = false
          · have hall := hsteady hmulti
            rw [if_neg hzero] at hall
            cases ios with
            | nil => exact .inr (.inr nofun)
            | cons io ios => exact .inr (hall io List.mem_cons_self)
          · exact .inl fun hs => absurd hs hmulti
      · obtain ⟨hfree, hn⟩ := hok rfl
        have htail : b.singleOrigin = false →
            ∀ r ∈ (if applied + 1 = 0 then ios.tail.tail else ios.tail),
              r.atCap = true ∨ r.append.fault ≠ some .refuse := by
          intro hs r hr
          rw [if_neg (Nat.succ_ne_zero applied)] at hr
          refine hsteady (hframe.single ▸ hs) r ?_
          split
          · exact hr
          · exact List.mem_of_mem_tail hr
        obtain ⟨hframe', hready', hfail', hok'⟩ := ih hready ios.tail (offset + 1) (applied + 1)
          hrest hlt (fun _ => hn.trans (by omega)) (fun _ => by omega) nofun htail
          fun hc r hr => hclean hc r (mem_of_mem_tail hr)
        exact ⟨hframe.trans hframe', hready', hfail', hok'⟩

/-- What holds of an applier between pulls. -/
structure Kept (o : Origins) (logs : OriginKey → List Stored) (clean : Prop) (a : MirrorApplier) :
    Prop where
  book : Book o logs a.log.records
  synced : a.singleOrigin = false → clean → Marked (durableRecords a.log)
  whole : a.singleOrigin = false → a.log.frozen = false → clean → Marked a.log.records
  only : a.singleOrigin = true → ∀ r ∈ a.log.records, ∃ k ∈ o.keys, r.origin = some k
  unread : a.singleOrigin = false → a.originHwm = none → Marked a.log.records
  hwm : a.singleOrigin = false → ∀ m, a.originHwm = some m →
    Fits o logs m ∧ (a.log.frozen = false → ∀ k, m.at k = count k a)

omit h in
theorem Kept.mono {clean' : Prop} (h : Kept o logs clean a) (hclean : clean' → clean) :
    Kept o logs clean' a :=
  ⟨h.book, fun hs hc => h.synced hs (hclean hc), fun hs hf hc => h.whole hs hf (hclean hc), h.only,
    h.unread, h.hwm⟩

theorem Ready.kept (hexact : Exact clean key a) : Kept o logs clean a := by
  refine ⟨h.book, h.synced, fun hs hf => (hexact hs hf).2, h.only, fun hs hnone => ?_,
    fun hs m hm => ?_⟩
  · obtain ⟨m, hm, -⟩ := h.hwm hs
    rw [hnone] at hm
    exact nomatch hm
  · obtain ⟨m', hm', hfits, hat⟩ := h.hwm hs
    obtain rfl := Option.some.inj (hm'.symm.trans hm)
    refine ⟨hfits, fun hf k => ?_⟩
    by_cases hk : k = key
    · rw [hk]
      exact (hexact hs hf).1 _ hm
    · exact (hat hf).2 k hk

omit h in
/-- The marker at the end of a log says how many records of each origin it has. -/
theorem readDurableHwm_spec (hroom : ∀ k, (logs k).length ≤ u64Max)
    (h : Book o logs a.log.records) (hmarked : Marked a.log.records) :
    Fits o logs (readDurableHwm a.log) ∧ ∀ k, (readDurableHwm a.log).at k = count k a := by
  cases hlast : a.log.records.getLast? with
  | none =>
    have hnil : a.log.records = [] := getLast?_eq_none_iff.mp hlast
    have hread : readDurableHwm a.log = ∅ := by rw [readDurableHwm, hlast]
    rw [hread]
    refine ⟨Fits.empty, fun k => ?_⟩
    rw [count, hnil]
    rfl
  | some r =>
    obtain ⟨before, hsplit⟩ := getLast?_eq_some_iff.mp hlast
    obtain ⟨m, now, hr, hfits, hat⟩ := h.marker before r [] hsplit (hmarked r hlast)
    obtain ⟨m', hdec, hlook⟩ := hfits.readable hroom
    have hread : readDurableHwm a.log = m' := by
      have hdrop : r.content.payload.drop geoHwmMarkerMagic.length = encodeCursorPayload m := by
        rw [hr]
        exact drop_left
      have hmark : isHwmMarker r.content = true := by
        rw [hr]
        simp [isHwmMarker, hwmMarker, RecordView.appended]
      simp only [readDurableHwm, hlast]
      rw [if_pos hmark, hdrop, hdec, Option.getD_some]
    rw [hread]
    refine ⟨hfits.congr hlook, fun k => ?_⟩
    rw [CursorMap.at, hlook k]
    refine (hat k).trans ?_
    rw [count, hsplit, hr, ofOrigin_append, ofOrigin_marker, append_nil]

omit h in
/-- Before a pull walks its frames the positions in memory are exact. -/
theorem ensureOriginHwm_spec (hroom : ∀ k, (logs k).length ≤ u64Max) (h : Kept o logs clean a)
    (key : OriginKey) (tailReadFails : Bool) :
    let res := a.ensureOriginHwm tailReadFails
    (res.1 = false → res.2 = a)
      ∧ (res.1 = true → res.2.log = a.log ∧ Frame a res.2 ∧ Ready o logs clean key res.2
        ∧ Exact clean key res.2) := by
  intro res
  by_cases hload : a.singleOrigin = true ∨ a.originHwm.isSome = true
  · have hres : res = (true, a) := by
      have hor : (a.singleOrigin || a.originHwm.isSome) = true := by simpa using hload
      simp only [res, ensureOriginHwm, hor, if_true]
    rw [hres]
    refine ⟨nofun, fun _ => ⟨rfl, .refl a, ⟨h.book, h.synced, h.only, fun hs => ?_⟩,
      fun hs hf => ⟨fun m hm => ?_, h.whole hs hf⟩⟩⟩
    · rcases hload with hs' | hsome
      · rw [hs] at hs'
        exact nomatch hs'
      · obtain ⟨m, hm⟩ := Option.isSome_iff_exists.mp hsome
        obtain ⟨hfits, hat⟩ := h.hwm hs m hm
        exact ⟨m, hm, hfits, fun hf => ⟨(hat hf key).le, fun k _ => hat hf k⟩⟩
    · exact (h.hwm hs m hm).2 hf key
  · have hsingle : a.singleOrigin = false := by
      simpa using fun hs => hload (.inl hs)
    have hnone : a.originHwm = none := by
      simpa using fun hs => hload (.inr hs)
    by_cases hfail : (tailReadFails && a.log.nextOffset != 0) = true
    · have hres : res = (false, a) := by
        simp only [res, ensureOriginHwm, hsingle, hnone, hfail, Option.isSome_none, Bool.or_self,
          Bool.false_eq_true, if_false, if_true]
      rw [hres]
      exact ⟨fun _ => rfl, nofun⟩
    · -- the positions are read back from the last marker
      have hres : res = (true, { a with originHwm := some (readDurableHwm a.log) }) := by
        simp only [res, ensureOriginHwm, hsingle, hnone, hfail, Option.isSome_none, Bool.or_self,
          Bool.false_eq_true, if_false]
      obtain ⟨hfits, hat⟩ := readDurableHwm_spec hroom h.book (h.unread hsingle hnone)
      rw [hres]
      refine ⟨nofun, fun _ => ⟨rfl, ⟨rfl, rfl, .refl _⟩, ⟨h.book, h.synced, h.only, fun _ => ?_⟩,
        ?_⟩⟩
      · exact ⟨_, rfl, hfits, fun _ => ⟨(hat key).le, fun k _ => hat k⟩⟩
      · refine fun hs hf => ⟨fun m hm => ?_, h.whole hs hf⟩
        cases hm
        exact hat key

/-- What the end of a batch does to the log. -/
theorem syncWithHwmMarker_spec (hkey : key ∈ o.keys) (io : GeoIo)
    (hclean : clean → io.marker.fault ≠ some .refuse) (hn : n ≤ (logs key).length) (appended : Bool)
    (hcount : appended = true → a.log.frozen = false → count key a = n)
    (hexact : appended = false → Exact clean key a) :
    let res := a.syncWithHwmMarker io key n appended
    Frame a res.2 ∧ Ready o logs clean key res.2 ∧ Exact clean key res.2
      ∧ (res.1 = true → a.log.frozen = false ∧ count key res.2 = count key a
        ∧ durableRecords res.2.log = res.2.log.records) := by
  -- the marker, if there is one
  have hmark : ∃ b ok, (if appended && !a.singleOrigin
        then a.writeHwmMarker io.marker io.nowUnixMillis key n else (true, a)) = (ok, b)
      ∧ Frame a b ∧ Ready o logs clean key b ∧ Exact clean key b ∧ count key b = count key a
      ∧ (b.log.frozen = false → a.log.frozen = false) := by
    cases happ : appended with
    | false => exact ⟨a, true, rfl, .refl a, h, hexact happ, rfl, id⟩
    | true =>
      cases hsingle : a.singleOrigin with
      | true => exact ⟨a, true, rfl, .refl a, h, fun hs => by simp [hsingle] at hs, rfl, id⟩
      | false =>
        obtain ⟨hframe, hready, hexact', hsame, hfree, -⟩ :=
          writeHwmMarker_spec h hkey hsingle io.marker hclean io.nowUnixMillis hn (hcount happ)
        exact ⟨_, _, rfl, hframe, hready, hexact', hsame, hfree⟩
  obtain ⟨b, ok, hb, hframe, hready, hexact', hsame, hfree⟩ := hmark
  intro res
  have hres : res = if ok then
      ((b.log.sync io.syncFails).1, { b with log := (b.log.sync io.syncFails).2 })
      else (false, b) := by
    simp only [res, syncWithHwmMarker, hb]
    cases ok <;> rfl
  rw [hres]
  cases ok with
  | false => exact ⟨hframe, hready, hexact', by simp⟩
  | true =>
    obtain ⟨hrec, -, hall⟩ := b.log.sync_spec io.syncFails
    have hext := b.log.sync_extends io.syncFails
    have hunfrozen := @RecordLog.sync_unfrozen _ b.log io.syncFails
    have hok := @RecordLog.sync_ok _ b.log io.syncFails
    have hsall := b.log.sync_durable io.syncFails
    rw [if_pos rfl]
    generalize b.log.sync io.syncFails = synced at *
    have hmarked := fun hs hc =>
      Marked.of_durable hrec hsall (hready.synced hs hc) fun hf => (hexact' hs hf).2 hc
    refine ⟨hframe.trans ⟨rfl, rfl, hext⟩, hready.relog hrec hunfrozen hmarked,
      hexact'.relog hrec hunfrozen, fun hdone => ⟨hfree (hunfrozen (hok hdone)), ?_, ?_⟩⟩
    · rw [← hsame]
      simp only [count, hrec]
    · simp only [durableRecords]
      rw [hall hdone, ← hrec, take_length]

end

/-! ## Cursors -/

/-- The positions of a map are within a list of records. -/
structure Covered (o : Origins) (logs : OriginKey → List Stored) (rs : List GeoRecord)
    (m : CursorMap) : Prop where
  fits : Fits o logs m
  le : ∀ k, m.at k ≤ (ofOrigin k rs).length

/-- The cursors in memory and those a restart can find are within a list of records. -/
structure Safe (o : Origins) (logs : OriginKey → List Stored) (rs : List GeoRecord)
    (s : OriginCursorStore) : Prop where
  memory : Covered o logs rs s.cursors
  disk : ∀ b ∈ found s, ∃ m, b = encodeCursorPayload m ∧ Covered o logs rs m

theorem Covered.mono (h : Covered o logs rs m) (hfront : rs <+: ts) : Covered o logs ts m :=
  ⟨h.fits, fun k => (h.le k).trans (ofOrigin_isPrefix k hfront).length_le⟩

theorem Safe.mono (h : Safe o logs rs s) (hfront : rs <+: ts) : Safe o logs ts s := by
  refine ⟨h.memory.mono hfront, fun b hb => ?_⟩
  obtain ⟨m, hm, hcov⟩ := h.disk b hb
  exact ⟨m, hm, hcov.mono hfront⟩

theorem Safe.frame {b : MirrorApplier} (h : Safe o logs (durableRecords a.log) a.cursors)
    (hframe : Frame a b) : Safe o logs (durableRecords b.log) b.cursors := by
  rw [hframe.cursors]
  exact h.mono (durableRecords_isPrefix hframe.log)

theorem Covered.insert (h : Covered o logs rs m) (hkey : key ∈ o.keys)
    (hn : n ≤ (ofOrigin key rs).length) (hlen : n ≤ (logs key).length) :
    Covered o logs rs (m.insert key n) := by
  refine ⟨h.fits.insert hkey hlen, fun k => ?_⟩
  by_cases hk : k = key
  · rw [hk, at_insert_self]
    exact hn
  · rw [at_insert_ne m n hk]
    exact h.le k

/-- A commit that is covered keeps every cursor covered, wherever it fails. -/
theorem commit_spec (h : Safe o logs rs s) (hkey : key ∈ o.keys)
    (hn : n ≤ (ofOrigin key rs).length) (hlen : n ≤ (logs key).length) (writeFails : Bool) :
    Safe o logs rs (s.commit writeFails key n).2 := by
  have hnew : Covered o logs rs (s.cursors.insert key n) := h.memory.insert hkey hn hlen
  unfold OriginCursorStore.commit
  split
  · exact h
  simp only
  split
  · exact ⟨h.memory.insert hkey (h.memory.le key) (h.memory.fits.within key), h.disk⟩
  split
  · refine ⟨hnew, fun b hb => ?_⟩
    simp only [found, mem_append, mem_cons] at hb
    rcases hb with hb | rfl | hb
    · exact h.disk b (mem_append_left _ hb)
    · exact ⟨_, rfl, hnew⟩
    · exact h.disk b (mem_append_right _ hb)
  · refine ⟨hnew, fun b hb => ?_⟩
    simp only [found, Option.toList_some, append_nil, mem_singleton] at hb
    exact ⟨_, hb, hnew⟩

/-- A restart finds cursors that are covered. -/
theorem reopen_spec (hroom : ∀ k, (logs k).length ≤ u64Max) {s' : OriginCursorStore}
    (h : Safe o logs rs s) {payload : Option Bytes}
    (hpayload : payload = s.written ∨ ∃ b ∈ s.issued, payload = some b)
    (hopen : OriginCursorStore.reopen payload = some s') : Safe o logs rs s' := by
  cases payload with
  | none =>
    cases hopen
    exact ⟨⟨Fits.empty, fun _ => Nat.zero_le _⟩, nofun⟩
  | some b =>
    have hb : b ∈ found s := by
      rcases hpayload with hw | ⟨b', hb', heq⟩
      · exact mem_append_left _ (by rw [← hw]; exact mem_singleton.mpr rfl)
      · cases heq
        exact mem_append_right _ hb'
    obtain ⟨m, rfl, hcov⟩ := h.disk b hb
    obtain ⟨m', hdec, hlook⟩ := hcov.fits.readable hroom
    rw [OriginCursorStore.reopen, hdec] at hopen
    cases hopen
    refine ⟨⟨hcov.fits.congr hlook, fun k => ?_⟩, fun b hb => ?_⟩
    · rw [CursorMap.at, hlook k]
      exact hcov.le k
    · exact ⟨m, mem_singleton.mp hb, hcov⟩

/-! ## Every run -/

structure Inv (o : Origins) (w : World) : Prop where
  room : ∀ k, (w.logs k).length ≤ u64Max
  plain : ∀ k, ∀ s ∈ w.logs k, s.frame.subject = [] ∧ s.frame.streamTag = []
  single : w.applier.singleOrigin = true → o.keys.length = 1
  kept : Kept o w.logs (w.refused = false) w.applier
  safe : Safe o w.logs (durableRecords w.applier.log) w.applier.cursors

/-- What a pull leaves. -/
structure Pulled (o : Origins) (logs : OriginKey → List Stored) (clean : Prop)
    (a a' : MirrorApplier) : Prop where
  kept : Kept o logs clean a'
  safe : Safe o logs (durableRecords a'.log) a'.cursors
  single : a'.singleOrigin = a.singleOrigin

/-- What a pull leaves when its frames were all walked. -/
theorem finishPull_spec (h : Ready o logs clean key a) (hkey : key ∈ o.keys)
    (hsafe : Safe o logs (durableRecords a.log) a.cursors) (io : GeoIo)
    (hclean : clean → io.marker.fault ≠ some .refuse) {cursor seen applied anchor : Nat}
    (corrupt : Option DecodeError) (resp : MirrorPullResponse)
    (hlen : cursor + seen ≤ (logs key).length)
    (hcount : a.log.frozen = false → count key a = max anchor (cursor + seen))
    (hbehind : 0 < applied → anchor ≤ cursor + seen) (hexact : applied = 0 → Exact clean key a) :
    Pulled o logs clean a (a.finishPull io key cursor seen applied corrupt resp).2 := by
  obtain ⟨hframe, hready, hexact', hdone⟩ := syncWithHwmMarker_spec h hkey io hclean hlen
    (decide (0 < applied))
    (fun happ hf => (hcount hf).trans (by
      have := hbehind (of_decide_eq_true happ)
      omega))
    (fun happ => hexact (by
      have := of_decide_eq_false happ
      omega))
  unfold finishPull
  generalize a.syncWithHwmMarker io key (cursor + seen) (decide (0 < applied)) = res at *
  obtain ⟨ok, b⟩ := res
  have hsafe' := hsafe.frame hframe
  have hkept : Kept o logs clean b := hready.kept hexact'
  cases ok with
  | false => exact ⟨hkept, hsafe', hframe.single⟩
  | true =>
    -- everything walked is durable now, so the cursor may follow
    have hcov : cursor + seen ≤ (ofOrigin key (durableRecords b.log)).length := by
      obtain ⟨hfree, hsame, hdurable⟩ := hdone rfl
      rw [hdurable]
      change _ ≤ count key b
      rw [hsame, hcount hfree]
      exact le_max_right _ _
    have hcommit := commit_spec hsafe' hkey hcov hlen io.cursorFails
    have hall : Pulled o logs clean a (b.commitCursor io key (cursor + seen)).2 :=
      ⟨⟨hkept.book, hkept.synced, hkept.whole, hkept.only, hkept.unread, hkept.hwm⟩, hcommit,
        hframe.single⟩
    dsimp only
    generalize b.commitCursor io key (cursor + seen) = committed at hall ⊢
    obtain ⟨ok, c⟩ := committed
    cases corrupt with
    | some reason =>
      simp only
      split
      · cases ok <;> exact hall
      · exact ⟨hkept, hsafe', hframe.single⟩
    | none =>
      cases ok with
      | false => exact hall
      | true =>
        simp only
        split <;> exact hall

/-- The anchor of a pull is the number of the origin's records in the log. -/
theorem durableAnchor_eq (h : Ready o logs clean key a) (hexact : Exact clean key a)
    (hkey : key ∈ o.keys) (hsingle : a.singleOrigin = true → o.keys.length = 1)
    (hfree : a.log.frozen = false)
    {cursor : Nat} (hcursor : cursor ≤ count key a) : a.durableAnchor key cursor = count key a := by
  cases hs : a.singleOrigin with
  | true =>
    have hall : a.log.records.filter (·.origin = some key) = a.log.records := by
      refine filter_eq_self.mpr fun r hr => ?_
      obtain ⟨k, hk, hr⟩ := h.only hs r hr
      obtain ⟨only, honly⟩ := length_eq_one_iff.mp (hsingle hs)
      rw [honly, mem_singleton] at hk hkey
      rw [hr, hk, hkey]
      exact decide_eq_true rfl
    have hcount : count key a = a.log.nextOffset := by
      rw [count, ofOrigin, hall, length_map, RecordLog.nextOffset]
    rw [durableAnchor, hs, if_pos rfl, ← hcount]
    exact max_eq_left hcursor
  | false =>
    obtain ⟨m, hm, -⟩ := h.hwm hs
    rw [durableAnchor, hs, if_neg (by simp), hm, Option.getD_some, (hexact hs hfree).1 m hm]
    exact max_eq_right hcursor

/-- A pull adds the origin's next records. -/
theorem applyPullResponse_spec {w : World} (hinv : Inv o w) (hkey : key ∈ o.keys)
    (resp : MirrorPullResponse) (io : GeoIo) (hcarries : Carries (w.logs key) resp)
    (hsteady : w.applier.singleOrigin = false → GeoIo.Steady io) :
    Inv o { w with
      applier := (w.applier.applyPullResponse io key resp).2
      refused := w.refused || refusesMarker io } := by
  suffices hgoal : Pulled o w.logs ((w.refused || refusesMarker io) = false) w.applier
      (w.applier.applyPullResponse io key resp).2 from
    ⟨hinv.room, hinv.plain, fun hs => hinv.single (hgoal.single ▸ hs), hgoal.kept, hgoal.safe⟩
  have hkept : Kept o w.logs ((w.refused || refusesMarker io) = false) w.applier :=
    hinv.kept.mono fun h => (Bool.or_eq_false_iff.mp h).1
  have hclean (h : (w.refused || refusesMarker io) = false) : io.marker.fault ≠ some .refuse
      ∧ ∀ r ∈ io.records, r.marker.fault ≠ some .refuse := by
    simpa [refusesMarker] using (Bool.or_eq_false_iff.mp h).2
  generalize ((w.refused || refusesMarker io) = false) = clean at hkept hclean ⊢
  have hstay : Pulled o w.logs clean w.applier w.applier := ⟨hkept, hinv.safe, rfl⟩
  obtain ⟨hunread, hread⟩ := ensureOriginHwm_spec hinv.room hkept key io.tailReadFails
  unfold applyPullResponse
  simp only
  split
  · exact hstay
  split_ifs with hat
  · exact hstay
  rw [not_not] at hat
  generalize w.applier.ensureOriginHwm io.tailReadFails = loaded at *
  obtain ⟨_ | _, a⟩ := loaded
  · exact (hunread rfl).symm ▸ hstay
  obtain ⟨hlog, hframe, hready, hexact⟩ := hread rfl
  simp only at hlog hframe hready hexact ⊢
  -- the frames of the pull, from the cursor on
  generalize hcur : CursorMap.at w.applier.cursors.cursors key = cursor at *
  have hcursor : cursor ≤ (w.logs key).length := hcur ▸ hinv.safe.memory.fits.within key
  have hcovered : cursor ≤ count key a := by
    have hle := hinv.safe.memory.le key
    rw [hcur] at hle
    have hmono := (ofOrigin_isPrefix key (List.take_prefix w.applier.log.durable
      w.applier.log.records)).length_le
    rw [count, hlog]
    exact hle.trans hmono
  rcases hrun : decodeRun resp.frameBytes with ⟨run, corrupt⟩
  have hfs : run <+: ((w.logs key).drop cursor).map Stored.frame := by
    have hframes := decodeRun_fst resp.frameBytes
    rw [hrun] at hframes
    rw [show run = frames resp.frameBytes from hframes, ← hat]
    exact hcarries
  have happended : run.map (·.view.appended) <+: (contents (w.logs key)).drop cursor := by
    have hsame : (contents (w.logs key)).drop cursor
        = (((w.logs key).drop cursor).map Stored.frame).map (·.view.appended) := by
      rw [contents, ← map_drop, map_map]
      refine map_congr_left fun s hs => ?_
      obtain ⟨hsubject, htag⟩ := hinv.plain key s (mem_of_mem_drop hs)
      exact (appended_eq_content (s.decode_append []) hsubject htag).symm
    rw [hsame]
    exact hfs.map _
  have hlen : cursor + run.length ≤ (w.logs key).length := by
    have := hfs.length_le
    rw [length_map, length_drop] at this
    omega
  obtain ⟨hwframe, hwready, hwfail, hwok⟩ := applyRun_spec hkey io.nowUnixMillis
    (a.durableAnchor key cursor) run hready io.records cursor 0 happended hcursor
    (fun hf => by
      rw [durableAnchor_eq hready hexact hkey (fun hs => hinv.single (hframe.single ▸ hs)) hf
        hcovered]
      omega)
    nofun (fun _ => hexact) (fun hs => hsteady (hframe.single ▸ hs)) fun hc => (hclean hc).2
  simp only
  generalize applyRun io.nowUnixMillis key (a.durableAnchor key cursor) io.records cursor 0 run a
    = walked at *
  obtain ⟨ok, applied, b⟩ := walked
  have hbsafe := (hinv.safe.frame hframe).frame hwframe
  have hmode : b.singleOrigin = w.applier.singleOrigin := hwframe.single.trans hframe.single
  cases ok with
  | false => exact ⟨hwready.kept (hwfail rfl), hbsafe, hmode⟩
  | true =>
    obtain ⟨hcount, hbehind, hexact'⟩ := hwok rfl
    have hdone := finishPull_spec hwready hkey hbsafe io (fun hc => (hclean hc).1) corrupt resp hlen
      hcount hbehind hexact'
    exact ⟨hdone.kept, hdone.safe, hdone.single.trans hmode⟩

/-- Origins only gain records. -/
theorem Inv.produce {w : World} (hinv : Inv o w) (key : OriginKey) {s : Stored}
    (hsubject : s.frame.subject = []) (htag : s.frame.streamTag = [])
    (hroom : (w.logs key).length < u64Max) :
    Inv o { w with logs := update w.logs key (w.logs key ++ [s]) } := by
  -- the logs only grow, so what is covered stays so
  have hgrow : ∀ k, w.logs k <+: update w.logs key (w.logs key ++ [s]) k := by
    intro k
    by_cases hk : k = key
    · rw [hk, update_self]
      exact prefix_append _ _
    · rw [update_of_ne hk]
  generalize hlogs : update w.logs key (w.logs key ++ [s]) = logs' at *
  have hfits : ∀ {m : CursorMap}, Fits o w.logs m → Fits o logs' m := fun h =>
    ⟨h.known, fun k => (h.within k).trans (hgrow k).length_le⟩
  have hcov : ∀ {rs : List GeoRecord} {m : CursorMap}, Covered o w.logs rs m →
      Covered o logs' rs m := fun h => ⟨hfits h.fits, h.le⟩
  refine ⟨fun k => ?_, fun k t ht => ?_, hinv.single, ⟨⟨fun k => ?_, ?_⟩, hinv.kept.synced,
    hinv.kept.whole, hinv.kept.only, hinv.kept.unread, fun hs m hm => ?_⟩,
    ⟨hcov hinv.safe.memory, fun b hb => ?_⟩⟩
  · rw [← hlogs]
    dsimp only
    by_cases hk : k = key
    · rw [hk, update_self, length_append, length_singleton]
      exact hroom
    · rw [update_of_ne hk]
      exact hinv.room k
  · rw [← hlogs] at ht
    dsimp only at ht
    by_cases hk : k = key
    · rw [hk, update_self] at ht
      rcases mem_append.mp ht with ht | ht
      · exact hinv.plain key t ht
      · rw [mem_singleton.mp ht]
        exact ⟨hsubject, htag⟩
    · rw [update_of_ne hk] at ht
      exact hinv.plain k t ht
  · exact (hinv.kept.book.front k).trans ((hgrow k).map _)
  · intro before r after heq hnone
    obtain ⟨m, now, hr, hm, hat⟩ := hinv.kept.book.marker before r after heq hnone
    exact ⟨m, now, hr, hfits hm, hat⟩
  · obtain ⟨hm', hat⟩ := hinv.kept.hwm hs m hm
    exact ⟨hfits hm', hat⟩
  · obtain ⟨m, hm, hc⟩ := hinv.safe.disk b hb
    exact ⟨m, hm, hcov hc⟩

theorem Inv.start (o : Origins) : Inv o (World.start o) := by
  refine ⟨fun _ => Nat.zero_le _, fun _ _ => nofun, fun hs => of_decide_eq_true hs,
    ⟨Book.nil, fun _ _ => nofun, fun _ _ _ => nofun, fun _ _ => nofun, fun _ _ _ => nofun,
      fun _ _ => nofun⟩,
    ⟨⟨Fits.empty, fun _ => Nat.zero_le _⟩, nofun⟩⟩

theorem Step.inv {w w' : World} (h : Step o w w') (hinv : Inv o w) : Inv o w' := by
  cases h with
  | produce key s hsubject htag hroom => exact hinv.produce key hsubject htag hroom
  | pull key resp io hkey hcarries hsteady =>
    exact applyPullResponse_spec hinv hkey resp io hcarries hsteady
  | crash survivors payload cursors hpayload hopen hmarked =>
    obtain ⟨hrec, -⟩ := w.applier.log.crash_spec survivors
    have hleft : w.applier.singleOrigin = false →
        Marked (w.applier.log.crash survivors).records := by
      intro hs
      by_cases hask : w.refused = true ∨ w.applier.log.durable < survivors
      · exact hmarked hs hask
      · -- the crash keeps just what was synced
        obtain ⟨hclean, hle⟩ := not_or.mp hask
        have := hinv.kept.synced hs (Bool.eq_false_iff.mpr hclean)
        rwa [durableRecords, ← max_eq_left (not_lt.mp hle)] at this
    have hsame := durableRecords_crash w.applier.log survivors
    refine ⟨hinv.room, hinv.plain, hinv.single, ⟨hinv.kept.book.of_isPrefix hrec, fun hs hc => ?_,
      fun hs _ _ => hleft hs, fun hs r hr => ?_, fun hs _ => hleft hs, fun _ _ => nofun⟩, ?_⟩
    · simp only [new, hsame]
      exact hinv.kept.synced hs hc
    · exact hinv.kept.only hs r (hrec.subset hr)
    · change Safe o w.logs (durableRecords (w.applier.log.crash survivors)) cursors
      rw [durableRecords_crash]
      exact reopen_spec hinv.room hinv.safe hpayload hopen

end Runs

section Concrete

local instance : Checksums := ⟨castagnoli, fun _ => 0⟩

end Concrete

end GeoMirror

end IronBus
