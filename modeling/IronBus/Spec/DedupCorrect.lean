import IronBus.Native.Dedup

/-!
# The deduplication window remembers the recent records of a session

A session is what a producer has recorded since the registry tracks it under its current epoch.
A window shows the young end of its session: what the count bound and the time bound leave.

Key results:
- `Shows.maintain`, `Shows.record`: what the calls of a window keep of that
- `Inv.check_eq_duplicate_iff`, `check_answers`: when a check answers that a record is a duplicate
-/

namespace IronBus

open DedupRegistry List AList

/-- A message that was recorded. -/
structure DedupRecord where
  msgId : Bytes
  offset : Nat
  instant : Nat
  deriving DecidableEq

/-- What a producer has recorded since it is tracked under its current epoch, oldest first. -/
structure DedupSession where
  epoch : Nat
  records : List DedupRecord
  deriving DecidableEq

namespace DedupRecord

/-- The record is older than the time bound. -/
def Expired (windowNanos now : Nat) (r : DedupRecord) : Prop :=
  windowNanos ≠ 0 ∧ windowNanos ≤ now - r.instant

/-- How the queue of a window lists a record. -/
def queued (r : DedupRecord) : Bytes × Nat := (r.msgId, r.instant)

theorem Expired.mono {windowNanos now now' : Nat} {r : DedupRecord}
    (h : r.Expired windowNanos now) (hle : now ≤ now') : r.Expired windowNanos now' :=
  ⟨h.1, by have := h.2; omega⟩

end DedupRecord

open DedupRecord

/-! ## The index of a queue -/

/-- The index holds exactly the given records, one per id. -/
structure IndexOf (index : Assoc Bytes (Nat × Nat)) (kept : List DedupRecord) : Prop where
  nodup : (kept.map msgId).Nodup
  lookup : ∀ id o t, index.lookup id = some (o, t) ↔ (⟨id, o, t⟩ : DedupRecord) ∈ kept

theorem IndexOf.nil : IndexOf ∅ [] := ⟨nodup_nil, fun _ _ _ => by simp⟩

/-- Popping the oldest record takes it out of the index. -/
theorem IndexOf.tail {index : Assoc Bytes (Nat × Nat)} {r : DedupRecord} {kept : List DedupRecord}
    (h : IndexOf index (r :: kept)) :
    IndexOf (ProducerWindow.dropFromIndex index r.msgId r.instant) kept := by
  have hr : index.lookup r.msgId = some (r.offset, r.instant) :=
    (h.lookup _ _ _).mpr mem_cons_self
  have hnd := nodup_cons.mp h.nodup
  have herase : ProducerWindow.dropFromIndex index r.msgId r.instant = index.erase r.msgId := by
    simp [ProducerWindow.dropFromIndex, hr]
  rw [herase]
  refine ⟨hnd.2, fun id o t => ?_⟩
  by_cases hid : id = r.msgId
  · subst hid
    rw [lookup_erase]
    simp only [reduceCtorEq, false_iff]
    exact fun hmem => hnd.1 (mem_map.mpr ⟨_, hmem, rfl⟩)
  · rw [lookup_erase_ne hid, h.lookup, mem_cons]
    constructor
    · rintro (rfl | hmem)
      · exact absurd rfl hid
      · exact hmem
    · exact .inr

/-- A new id goes to the end. -/
theorem IndexOf.snoc {index : Assoc Bytes (Nat × Nat)} {kept : List DedupRecord}
    (h : IndexOf index kept) {r : DedupRecord} (hnew : index.lookup r.msgId = none) :
    IndexOf (index.insert r.msgId (r.offset, r.instant)) (kept ++ [r]) := by
  have hnot : ∀ r' ∈ kept, r'.msgId ≠ r.msgId := by
    intro r' hr' heq
    have := (h.lookup r'.msgId r'.offset r'.instant).mpr hr'
    rw [heq, hnew] at this
    cases this
  refine ⟨?_, fun id o t => ?_⟩
  · rw [map_append, nodup_append]
    refine ⟨h.nodup, nodup_singleton _, fun a ha b hb => ?_⟩
    obtain ⟨r', hr', rfl⟩ := mem_map.mp ha
    rw [mem_singleton.mp hb]
    exact hnot r' hr'
  · rw [mem_append, mem_singleton]
    by_cases hid : id = r.msgId
    · subst hid
      rw [lookup_insert]
      constructor
      · intro heq
        obtain ⟨rfl, rfl⟩ := Prod.mk.inj (Option.some.inj heq)
        exact .inr rfl
      · rintro (hmem | heq)
        · exact absurd rfl (hnot ⟨r.msgId, o, t⟩ hmem)
        · rw [← heq]
    · rw [lookup_insert_ne hid, h.lookup]
      refine ⟨.inl, ?_⟩
      rintro (hmem | rfl)
      · exact hmem
      · exact absurd rfl hid

namespace ProducerWindow

/-! ## Popping from the front -/

/-- Popping by count removes that many records. -/
theorem popFront_spec {index : Assoc Bytes (Nat × Nat)} {kept : List DedupRecord}
    (h : IndexOf index kept) (n : Nat) :
    ∃ index', popFront n (kept.map queued) index = ((kept.drop n).map queued, index')
      ∧ IndexOf index' (kept.drop n) := by
  induction n generalizing kept index with
  | zero => exact ⟨index, rfl, h⟩
  | succ n ih =>
    cases kept with
    | nil => exact ⟨index, rfl, h⟩
    | cons r kept => exact ih h.tail

/-- Popping by age removes a front of expired records and stops at the first young one. -/
theorem popExpired_spec {windowNanos : Nat} (now : Nat) (hwin : windowNanos ≠ 0)
    {index : Assoc Bytes (Nat × Nat)} {kept : List DedupRecord} (h : IndexOf index kept) :
    ∃ j index', popExpired windowNanos now (kept.map queued) index
        = ((kept.drop j).map queued, index')
      ∧ IndexOf index' (kept.drop j)
      ∧ (∀ r ∈ kept.take j, r.Expired windowNanos now)
      ∧ ∀ r, (kept.drop j).head? = some r → ¬ r.Expired windowNanos now := by
  induction kept generalizing index with
  | nil => exact ⟨0, index, rfl, h, by simp, by simp⟩
  | cons r kept ih =>
    by_cases hage : now - r.instant < windowNanos
    · refine ⟨0, index, if_pos hage, h, by simp, fun r' hr' => ?_⟩
      rw [drop_zero, head?_cons] at hr'
      obtain rfl := Option.some.inj hr'
      exact fun hexp => by have := hexp.2; omega
    · obtain ⟨j, index', hpop, hidx, hexp, hfirst⟩ := ih h.tail
      refine ⟨j + 1, index', (if_neg hage).trans hpop, hidx, fun r' hr' => ?_, hfirst⟩
      rw [take_succ_cons, mem_cons] at hr'
      rcases hr' with rfl | hr'
      · exact ⟨hwin, by omega⟩
      · exact hexp r' hr'

/-! ## What a window shows of its session -/

/-- The window shows the session from its record `k` on; everything before that is too old or too
far back. -/
structure Shows (maxIds windowNanos now : Nat) (w : ProducerWindow) (s : DedupSession)
    (k : Nat) : Prop where
  epoch : w.epoch = s.epoch
  le : k ≤ s.records.length
  order : w.order = (s.records.drop k).map queued
  index : IndexOf w.index (s.records.drop k)
  gone : ∀ i r, i < k → s.records[i]? = some r →
    i + maxIds < s.records.length ∨ r.Expired windowNanos now
  sorted : s.records.Pairwise fun a b => a.instant ≤ b.instant
  past : ∀ r ∈ s.records, r.instant ≤ now

variable {maxIds windowNanos now now' k : Nat} {w : ProducerWindow} {s : DedupSession}

section

variable (h : w.Shows maxIds windowNanos now s k)

include h

theorem Shows.mono (hle : now ≤ now') :
    w.Shows maxIds windowNanos now' s k :=
  { h with
    gone := fun i r hi hr => (h.gone i r hi hr).imp_right fun he => he.mono hle
    past := fun r hr => Nat.le_trans (h.past r hr) hle }

theorem Shows.touch (t : Nat) :
    Shows maxIds windowNanos now { w with lastTouch := t } s k :=
  ⟨h.epoch, h.le, h.order, h.index, h.gone, h.sorted, h.past⟩

omit h in
/-- A new session of a new window. -/
theorem shows_new (maxIds windowNanos now epoch t : Nat) :
    Shows maxIds windowNanos now ⟨epoch, [], ∅, t⟩ ⟨epoch, []⟩ 0 :=
  ⟨rfl, le_rfl, rfl, .nil, fun i _ h => absurd h (Nat.not_lt_zero i), .nil,
    fun _ h => nomatch h⟩

/-- Evicting by age moves the cut behind the expired records, up to the first young one. -/
theorem Shows.evictExpired :
    ∃ k', k ≤ k' ∧ (w.evictExpired windowNanos now).2.Shows maxIds windowNanos now s k'
      ∧ ∀ r ∈ s.records.drop k', ¬ r.Expired windowNanos now := by
  unfold ProducerWindow.evictExpired
  by_cases hwin : windowNanos = 0
  · rw [if_pos hwin]
    exact ⟨k, Nat.le_refl k, h, fun r _ hr => hr.1 hwin⟩
  · rw [if_neg hwin]
    obtain ⟨j, index', hpop, hidx, hexp, hfirst⟩ := popExpired_spec now hwin h.index
    rw [h.order, hpop]
    have hdrop : (s.records.drop k).drop j = s.records.drop (min (k + j) s.records.length) := by
      rw [List.drop_drop]
      rcases le_total (k + j) s.records.length with hle | hle
      · rw [min_eq_left hle]
      · rw [min_eq_right hle, List.drop_of_length_le hle, List.drop_length]
    rw [hdrop] at hidx hfirst
    have hk := h.le
    refine ⟨min (k + j) s.records.length, by omega, ⟨h.epoch, min_le_right _ _, ?_, hidx,
      fun i r hi hr => ?_, h.sorted, h.past⟩, fun r hr => ?_⟩
    · simp only [hdrop]
    · -- a record between the two cuts was popped, so it is expired
      by_cases hik : i < k
      · exact h.gone i r hik hr
      · refine .inr (hexp r ?_)
        rw [List.mem_take_iff_getElem]
        obtain ⟨hlt, rfl⟩ := List.getElem?_eq_some_iff.mp hr
        refine ⟨i - k, by rw [List.length_drop]; omega, ?_⟩
        rw [List.getElem_drop]
        congr 1
        omega
    · -- the first record left is young and the others are younger still
      cases hl : s.records.drop (min (k + j) s.records.length) with
      | nil =>
        rw [hl] at hr
        cases hr
      | cons a l =>
        have hsorted := h.sorted.drop (i := min (k + j) s.records.length)
        rw [hl] at hr hsorted
        have ha := hfirst a (by rw [hl]; rfl)
        have hle : a.instant ≤ r.instant := by
          rcases List.mem_cons.mp hr with rfl | hr
          · exact le_rfl
          · exact (List.pairwise_cons.mp hsorted).1 r hr
        exact fun he => ha ⟨he.1, by have := he.2; omega⟩

/-- Evicting by count moves the cut to the last `maxIds` records. -/
theorem Shows.evictOverflow :
    (w.evictOverflow maxIds).Shows maxIds windowNanos now s
      (max k (s.records.length - maxIds)) := by
  unfold ProducerWindow.evictOverflow
  obtain ⟨index', hpop, hidx⟩ := popFront_spec h.index ((s.records.drop k).length - maxIds)
  have hk := h.le
  have hcut : k + ((s.records.drop k).length - maxIds) = max k (s.records.length - maxIds) := by
    rw [length_drop]
    omega
  rw [drop_drop, hcut] at hpop hidx
  rw [h.order, length_map, hpop]
  refine ⟨h.epoch, by omega, rfl, hidx, fun i r hi hr => ?_, h.sorted, h.past⟩
  by_cases hik : i < k
  · exact h.gone i r hik hr
  · exact .inl (by omega)

/-- Maintenance: what is left is among the last `maxIds` records and not expired. -/
theorem Shows.maintain :
    ∃ k', ((w.evictExpired windowNanos now).2.evictOverflow maxIds).Shows
      maxIds windowNanos now s k'
      ∧ s.records.length - maxIds ≤ k'
      ∧ ∀ r ∈ s.records.drop k', ¬ r.Expired windowNanos now := by
  obtain ⟨k₁, -, h₁, hyoung⟩ := h.evictExpired
  refine ⟨_, h₁.evictOverflow, le_max_right _ _, fun r hr => hyoung r ?_⟩
  rw [show max k₁ (s.records.length - maxIds)
    = k₁ + (max k₁ (s.records.length - maxIds) - k₁) by omega, ← drop_drop] at hr
  exact mem_of_mem_drop hr

/-- After maintenance the index finds exactly the records among the last `maxIds` that are not
expired. -/
theorem Shows.lookup_maintain (hcut : s.records.length - maxIds ≤ k)
    (hyoung : ∀ r ∈ s.records.drop k, ¬ r.Expired windowNanos now) (id : Bytes) (o t : Nat) :
    w.index.lookup id = some (o, t) ↔
      (⟨id, o, t⟩ : DedupRecord) ∈ s.records.drop (s.records.length - maxIds)
        ∧ ¬ Expired windowNanos now ⟨id, o, t⟩ := by
  rw [h.index.lookup]
  constructor
  · intro hmem
    refine ⟨?_, hyoung _ hmem⟩
    rw [show k = (s.records.length - maxIds) + (k - (s.records.length - maxIds)) by omega,
      ← drop_drop] at hmem
    exact mem_of_mem_drop hmem
  · rintro ⟨hmem, hexp⟩
    obtain ⟨i, hi, heq⟩ := mem_iff_getElem.mp hmem
    rw [getElem_drop] at heq
    rw [length_drop] at hi
    -- its place is not before the cut: there every record is too far back or expired
    have hge : k ≤ s.records.length - maxIds + i := by
      refine not_lt.mp fun hlt => ?_
      have hget : s.records[s.records.length - maxIds + i]? = some ⟨id, o, t⟩ := by
        rw [getElem?_eq_getElem (by omega), heq]
      rcases h.gone _ _ hlt hget with hfar | he
      · omega
      · exact hexp he
    rw [mem_iff_getElem]
    refine ⟨s.records.length - maxIds + i - k, by rw [length_drop]; omega, ?_⟩
    rw [getElem_drop, ← heq]
    congr 1
    omega

/-- Recording a message whose id the window does not know. -/
theorem Shows.record (msgId : Bytes) (hnew : w.index.lookup msgId = none) (offset : Nat) :
    Shows maxIds windowNanos now
      { w with
        index := w.index.insert msgId (offset, now)
        order := w.order ++ [(msgId, now)] }
      ⟨s.epoch, s.records ++ [⟨msgId, offset, now⟩]⟩ k := by
  have hk := h.le
  have hdrop : (s.records ++ [(⟨msgId, offset, now⟩ : DedupRecord)]).drop k
      = s.records.drop k ++ [⟨msgId, offset, now⟩] := drop_append_of_le_length hk
  refine ⟨h.epoch, by rw [length_append]; omega, ?_, ?_, fun i r hi hr => ?_, ?_, ?_⟩
  · simp only [hdrop, map_append, h.order]
    rfl
  · simp only [hdrop]
    exact h.index.snoc (r := ⟨msgId, offset, now⟩) hnew
  · rw [getElem?_append_left (by omega)] at hr
    refine (h.gone i r hi hr).imp_left fun hlt => ?_
    rw [length_append]
    omega
  · rw [pairwise_append]
    refine ⟨h.sorted, pairwise_singleton _ _, fun a ha b hb => ?_⟩
    rw [mem_singleton.mp hb]
    exact h.past a ha
  · intro r hr
    rcases mem_append.mp hr with hr | hr
    · exact h.past r hr
    · rw [mem_singleton.mp hr]

end

end ProducerWindow

namespace DedupRegistry

/-! ## Touching a producer -/

variable {r : DedupRegistry} {p q : Bytes} {epoch now : Nat}

/-- Making room drops other producers or evicts what has expired in their windows. -/
theorem lookup_makeRoomFor {w : ProducerWindow}
    (h : (r.makeRoomFor p now).producers.lookup q = some w) :
    ∃ w₀, r.producers.lookup q = some w₀
      ∧ (w = w₀ ∨ w = (w₀.evictExpired r.config.windowNanos now).2) := by
  unfold makeRoomFor at h
  split at h
  · exact ⟨w, h, .inl rfl⟩
  split at h
  · exact ⟨w, h, .inl rfl⟩
  have hlook := TouchHeap.lookup_evict h
  unfold reapEmptyWindows at hlook
  split at hlook
  · exact ⟨w, hlook, .inl rfl⟩
  · simp only [Assoc.lookup_retain, Option.bind_eq_some_iff] at hlook
    obtain ⟨w₀, hw₀, hif⟩ := hlook
    split at hif
    · cases hif
    · exact ⟨w₀, hw₀, .inr (Option.some.inj hif).symm⟩

theorem makeRoomFor_of_tracked {w : ProducerWindow} (h : r.producers.lookup p = some w) :
    r.makeRoomFor p now = r := by
  rw [makeRoomFor, h]
  rfl

theorem makeRoomFor_config : (r.makeRoomFor p now).config = r.config := by
  unfold makeRoomFor
  split
  · rfl
  · split
    · rfl
    · unfold reapEmptyWindows
      split <;> rfl

@[simp] theorem touch_config (r : DedupRegistry) (p : Bytes) (epoch now : Nat) :
    (r.touch p epoch now).config = r.config := makeRoomFor_config

theorem lookup_touch_self :
    (r.touch p epoch now).producers.lookup p = some (r.touched p epoch now) := by
  show lookup p (insert p _ _) = _
  rw [lookup_insert, touched, touched]
  cases h : r.producers.lookup p with
  | some w => rw [makeRoomFor_of_tracked h, h]
  | none =>
    have hnone : (r.makeRoomFor p now).producers.lookup p = none := by
      cases h' : (r.makeRoomFor p now).producers.lookup p with
      | none => rfl
      | some w =>
        obtain ⟨w₀, hw₀, -⟩ := lookup_makeRoomFor h'
        rw [h] at hw₀
        cases hw₀
    rw [hnone]

theorem lookup_touch_ne {w : ProducerWindow} (hq : q ≠ p)
    (h : (r.touch p epoch now).producers.lookup q = some w) :
    ∃ w₀, r.producers.lookup q = some w₀
      ∧ (w = w₀ ∨ w = (w₀.evictExpired r.config.windowNanos now).2) := by
  refine lookup_makeRoomFor (p := p) ?_
  rw [← h]
  exact (lookup_insert_ne hq).symm

/-- Touching a tracked producer changes nothing but its recency. -/
theorem touch_of_tracked {w : ProducerWindow} (h : r.producers.lookup p = some w)
    (epoch now : Nat) : ∃ lru, r.touch p epoch now
      = { r with producers := r.producers.insert p { w with lastTouch := now }, lru := lru } := by
  unfold touch
  rw [makeRoomFor_of_tracked h]
  simp only [touched, h, Option.getD_some]
  exact ⟨_, rfl⟩

/-- The window a check leaves, unless its epoch is stale. -/
def maintained (r : DedupRegistry) (p : Bytes) (epoch now : Nat) : ProducerWindow :=
  ((enterEpoch (r.touched p epoch now) epoch).evictExpired r.config.windowNanos now).2.evictOverflow
    r.config.maxIds

/-- A check under a stale epoch only touches the producer. -/
theorem check_of_lt (msgId : Bytes) (h : epoch < (r.touched p epoch now).epoch) :
    r.check p epoch msgId now = (.fenced (r.touched p epoch now).epoch, r.touch p epoch now) := by
  unfold check
  simp only [lookup_touch_self, Option.getD_some]
  rw [if_pos h]

/-- Any other check puts the maintained window back and answers from its index. -/
theorem check_of_le (msgId : Bytes) (h : (r.touched p epoch now).epoch ≤ epoch) :
    (r.check p epoch msgId now).2 = (r.touch p epoch now).setWindow p (r.maintained p epoch now)
      ∧ ((∃ o t, (r.maintained p epoch now).index.lookup msgId = some (o, t)
          ∧ (r.check p epoch msgId now).1 = .duplicate o)
        ∨ (r.maintained p epoch now).index.lookup msgId = none
          ∧ ∃ b, (r.check p epoch msgId now).1 = .fresh b) := by
  unfold check
  simp only [lookup_touch_self, Option.getD_some, touch_config]
  rw [if_neg (not_lt.mpr h)]
  cases hlook : (r.maintained p epoch now).index.lookup msgId with
  | none =>
    have hlook' := hlook
    unfold maintained at hlook'
    simp only [hlook']
    exact ⟨rfl, .inr ⟨trivial, _, rfl⟩⟩
  | some e =>
    have hlook' := hlook
    unfold maintained at hlook'
    simp only [hlook']
    exact ⟨rfl, .inl ⟨e.1, e.2, rfl, rfl⟩⟩

end DedupRegistry

/-! ## Registry and sessions side by side -/

/-- A registry next to the sessions of its producers, the message a record is due for, and the
clock. -/
structure DedupWorld where
  registry : DedupRegistry
  sessions : Bytes → Option DedupSession
  due : Option (Bytes × Bytes)
  clock : Nat

namespace DedupWorld

def start (config : DedupConfig) : DedupWorld := ⟨.new config, fun _ => none, none, 0⟩

/-- The sessions after a call for `p` left the registry `r`: that of `p` is given, and a producer
the registry no longer tracks has none. -/
def sessionsAfter (w : DedupWorld) (r : DedupRegistry) (p : Bytes) (s : Option DedupSession) :
    Bytes → Option DedupSession := fun q =>
  if q = p then s else if (r.producers.lookup q).isSome then w.sessions q else none

/-- The session a check works on: a newer epoch, or a producer not tracked before, starts one. -/
def sessionAt (epoch : Nat) : Option DedupSession → DedupSession
  | none => ⟨epoch, []⟩
  | some s => if s.epoch < epoch then ⟨epoch, []⟩ else s

def check (w : DedupWorld) (p : Bytes) (epoch : Nat) (msgId : Bytes) (now : Nat) : DedupWorld :=
  let d := w.registry.check p epoch msgId now
  { registry := d.2
    sessions := w.sessionsAfter d.2 p (some (sessionAt epoch (w.sessions p)))
    due := match d.1 with
      | .fresh _ => some (p, msgId)
      | _ => none
    clock := now }

def record (w : DedupWorld) (p msgId : Bytes) (offset now : Nat) : DedupWorld :=
  let r := w.registry.record p msgId offset now
  { registry := r
    sessions := w.sessionsAfter r p ((w.sessions p).map fun s =>
      { s with records := s.records ++ [⟨msgId, offset, now⟩] })
    due := none
    clock := now }

/-- The states reached by checks and records, under a clock that does not go back; a record
directly follows the check that found its message fresh. -/
inductive Reach (config : DedupConfig) : DedupWorld → Prop
  | start : Reach config (start config)
  | check {w : DedupWorld} (h : Reach config w) (p : Bytes) (epoch : Nat) (msgId : Bytes)
      (now : Nat) (hnow : w.clock ≤ now) : Reach config (w.check p epoch msgId now)
  | record {w : DedupWorld} (h : Reach config w) (p msgId : Bytes) (offset now : Nat)
      (hdue : w.due = some (p, msgId)) (hnow : w.clock ≤ now) :
      Reach config (w.record p msgId offset now)

/-- A producer's window shows its session, or there is neither. -/
def Tracked (r : DedupRegistry) (now : Nat) (q : Bytes) (session : Option DedupSession) : Prop :=
  (r.producers.lookup q = none ∧ session = none)
    ∨ ∃ win s k, r.producers.lookup q = some win ∧ session = some s
      ∧ win.Shows r.config.maxIds r.config.windowNanos now s k

structure Inv (w : DedupWorld) : Prop where
  tracked : ∀ q, Tracked w.registry w.clock q (w.sessions q)
  due : ∀ p msgId, w.due = some (p, msgId) →
    ∃ win, w.registry.producers.lookup p = some win ∧ win.index.lookup msgId = none

variable {w : DedupWorld} {p : Bytes} {epoch : Nat} {msgId : Bytes} {now : Nat}

theorem inv_start (config : DedupConfig) : (start config).Inv :=
  ⟨fun _ => .inl ⟨rfl, rfl⟩, fun _ _ h => by cases h⟩

/-- A call for `p` that touches it and leaves it a window leaves the other producers showing their
sessions. -/
theorem Inv.tracked_after (h : w.Inv) (hnow : w.clock ≤ now) {e : Nat} {r : DedupRegistry}
    {win : ProducerWindow} {s : DedupSession} {k : Nat} (hconfig : r.config = w.registry.config)
    (hself : r.producers.lookup p = some win)
    (hother : ∀ q, q ≠ p →
      r.producers.lookup q = (w.registry.touch p e now).producers.lookup q)
    (hwin : win.Shows w.registry.config.maxIds w.registry.config.windowNanos now s k) (q : Bytes) :
    Tracked r now q (w.sessionsAfter r p (some s) q) := by
  unfold sessionsAfter Tracked
  rw [hconfig]
  by_cases hq : q = p
  · subst hq
    rw [if_pos rfl]
    exact .inr ⟨win, s, k, hself, rfl, hwin⟩
  · rw [if_neg hq]
    cases hlook : r.producers.lookup q with
    | none => exact .inl ⟨rfl, rfl⟩
    | some win' =>
      rw [hother q hq] at hlook
      obtain ⟨w₀, hw₀, heq⟩ := lookup_touch_ne hq hlook
      rcases h.tracked q with ⟨hnone, -⟩ | ⟨win₀, s₀, k₀, hwin₀, hs₀, hshows⟩
      · rw [hw₀] at hnone
        cases hnone
      · obtain rfl := Option.some.inj (hw₀.symm.trans hwin₀)
        have hshows' := hshows.mono hnow
        rcases heq with rfl | rfl
        · exact .inr ⟨_, s₀, k₀, rfl, hs₀, hshows'⟩
        · obtain ⟨k₁, -, hshows₁, -⟩ := hshows'.evictExpired
          exact .inr ⟨_, s₀, k₁, rfl, hs₀, hshows₁⟩

/-- A check works on a window that shows the session. -/
theorem Inv.shows_entered (h : w.Inv) (hnow : w.clock ≤ now) (p : Bytes) (epoch : Nat) :
    ∃ k, (enterEpoch (w.registry.touched p epoch now) epoch).Shows
      w.registry.config.maxIds w.registry.config.windowNanos now
      (sessionAt epoch (w.sessions p)) k := by
  unfold enterEpoch touched
  rcases h.tracked p with ⟨hnone, hsess⟩ | ⟨win, s, k, hwin, hsess, hshows⟩
  · rw [hnone, hsess]
    simp only [Option.getD_none, ProducerWindow.new, Nat.lt_irrefl, if_false, sessionAt]
    exact ⟨0, ProducerWindow.shows_new _ _ _ _ _⟩
  · rw [hwin, hsess]
    simp only [Option.getD_some, sessionAt, ← hshows.epoch]
    split
    · exact ⟨0, ProducerWindow.shows_new _ _ _ _ _⟩
    · exact ⟨k, (hshows.mono hnow).touch now⟩

/-- The epoch of the window a check finds is that of the session. -/
theorem Inv.touched_epoch (h : w.Inv) (p : Bytes) (epoch now : Nat) :
    (w.registry.touched p epoch now).epoch = (w.sessions p).elim epoch DedupSession.epoch := by
  unfold touched
  rcases h.tracked p with ⟨hnone, hsess⟩ | ⟨win, s, k, hwin, hsess, hshows⟩
  · rw [hnone, hsess]
    rfl
  · rw [hwin, hsess]
    exact hshows.epoch

/-- A stale check works on the session it found. -/
theorem sessionAt_of_lt {s : Option DedupSession} (h : epoch < s.elim epoch DedupSession.epoch) :
    ∃ s', s = some s' ∧ epoch < s'.epoch ∧ sessionAt epoch s = s' := by
  cases s with
  | none => exact absurd h (lt_irrefl _)
  | some s' => exact ⟨s', rfl, h, if_neg (not_lt.mpr (Nat.le_of_lt h))⟩

/-- What a check that is not stale can find is in the session of its epoch. -/
theorem exists_mem_sessionAt {s : Option DedupSession} {maxIds o : Nat} {P : Nat → Prop}
    (hle : s.elim epoch DedupSession.epoch ≤ epoch) :
    (∃ t, (⟨msgId, o, t⟩ : DedupRecord) ∈ (sessionAt epoch s).records.drop
        ((sessionAt epoch s).records.length - maxIds) ∧ P t) ↔
      ∃ s', s = some s' ∧ s'.epoch = epoch ∧ ∃ r ∈ s'.records.drop (s'.records.length - maxIds),
        r.msgId = msgId ∧ r.offset = o ∧ P r.instant := by
  constructor
  · rintro ⟨t, hmem, hP⟩
    cases s with
    | none => simp [sessionAt] at hmem
    | some s' =>
      have hle' : s'.epoch ≤ epoch := hle
      unfold sessionAt at hmem
      by_cases hlt : s'.epoch < epoch
      · simp [hlt] at hmem
      · simp only [hlt, if_false] at hmem
        exact ⟨s', rfl, by omega, _, hmem, rfl, rfl, hP⟩
  · rintro ⟨s', rfl, rfl, r, hmem, rfl, rfl, hP⟩
    refine ⟨r.instant, ?_, hP⟩
    simp only [sessionAt, Nat.lt_irrefl, if_false]
    exact hmem

theorem not_expired_iff {windowNanos t : Nat} {id : Bytes} {o : Nat} :
    ¬ Expired windowNanos now ⟨id, o, t⟩
      ↔ windowNanos = 0 ∨ now - t < windowNanos := by
  simp only [Expired]
  omega

/-- A check that is not stale answers from the young end of the session. -/
theorem Inv.check_eq_duplicate_iff (h : w.Inv) (hnow : w.clock ≤ now)
    (hle : (w.registry.touched p epoch now).epoch ≤ epoch) (o : Nat) :
    (w.registry.check p epoch msgId now).1 = .duplicate o ↔
      ∃ t, (⟨msgId, o, t⟩ : DedupRecord) ∈ (sessionAt epoch (w.sessions p)).records.drop
          ((sessionAt epoch (w.sessions p)).records.length - w.registry.config.maxIds)
        ∧ (w.registry.config.windowNanos = 0 ∨ now - t < w.registry.config.windowNanos) := by
  obtain ⟨k, hshows⟩ := h.shows_entered hnow p epoch
  obtain ⟨k', hshows', hcut, hyoung⟩ := hshows.maintain
  have hlook : ∀ t, (w.registry.maintained p epoch now).index.lookup msgId = some (o, t) ↔ _ :=
    fun t => (hshows'.lookup_maintain hcut hyoung msgId o t).trans
      (and_congr_right fun _ => not_expired_iff)
  simp only [← hlook]
  obtain ⟨-, ⟨o', t, hsome, hdup⟩ | ⟨hnone, b, hfresh⟩⟩ := check_of_le msgId hle
  · rw [hdup, hsome]
    constructor
    · intro heq
      obtain rfl := DedupDecision.duplicate.inj heq
      exact ⟨t, rfl⟩
    · rintro ⟨t', heq⟩
      obtain ⟨rfl, -⟩ := Prod.mk.inj (Option.some.inj heq)
      rfl
  · rw [hfresh, hnone]
    simp

theorem enterEpoch_of_le {win : ProducerWindow} (h : epoch ≤ win.epoch) :
    enterEpoch win epoch = win := if_neg (not_lt.mpr h)

theorem Inv.check (h : w.Inv) (hnow : w.clock ≤ now) : (w.check p epoch msgId now).Inv := by
  obtain ⟨k, hshows⟩ := h.shows_entered hnow p epoch
  rcases lt_or_ge epoch (w.registry.touched p epoch now).epoch with hlt | hle
  · -- a fenced check leaves the window it found
    have heq := check_of_lt msgId hlt
    rw [enterEpoch_of_le (Nat.le_of_lt hlt)] at hshows
    unfold DedupWorld.check
    rw [heq]
    refine ⟨h.tracked_after hnow (touch_config _ _ _ _)
      lookup_touch_self (fun _ _ => rfl) hshows, fun _ _ hdue => ?_⟩
    cases hdue
  · obtain ⟨heq, hanswer⟩ := check_of_le msgId hle
    obtain ⟨k', hshows', -⟩ := hshows.maintain
    refine ⟨?_, fun p' id' hdue => ?_⟩
    · show ∀ q, Tracked (w.registry.check p epoch msgId now).2 now q
        (w.sessionsAfter (w.registry.check p epoch msgId now).2 p _ q)
      rw [heq]
      exact h.tracked_after hnow (touch_config w.registry p epoch now)
        (lookup_insert _) (fun q hq => lookup_insert_ne hq) hshows'
    · rcases hanswer with ⟨o, t, -, hdup⟩ | ⟨hnone, b, hfresh⟩
      · simp only [DedupWorld.check, hdup] at hdue
        cases hdue
      · simp only [DedupWorld.check, hfresh, Option.some.injEq, Prod.mk.injEq] at hdue
        obtain ⟨rfl, rfl⟩ := hdue
        refine ⟨w.registry.maintained p epoch now, ?_, hnone⟩
        show (w.registry.check p epoch msgId now).2.producers.lookup p = _
        rw [heq]
        exact lookup_insert _

theorem Inv.record (h : w.Inv) (hnow : w.clock ≤ now) (hdue : w.due = some (p, msgId))
    (offset : Nat) : (w.record p msgId offset now).Inv := by
  obtain ⟨win, hwin, hnew⟩ := h.due p msgId hdue
  rcases h.tracked p with ⟨hnone, -⟩ | ⟨win', s, k, hwin', hs, hshows⟩
  · rw [hwin] at hnone
    cases hnone
  obtain rfl := Option.some.inj (hwin.symm.trans hwin')
  refine ⟨?_, fun _ _ hdue => by cases hdue⟩
  have hrec := ((hshows.mono hnow).touch now).record msgId hnew offset
  obtain ⟨k', hshows', -⟩ := hrec.maintain
  unfold DedupWorld.record DedupRegistry.record
  rw [hs]
  simp only [lookup_touch_self, touched, hwin, Option.getD_some,
    touch_config]
  exact h.tracked_after hnow (touch_config w.registry p 0 now)
    (lookup_insert _) (fun q hq => lookup_insert_ne hq) hshows'

theorem Reach.inv {config : DedupConfig} (h : Reach config w) : w.Inv := by
  induction h with
  | start => exact inv_start config
  | check _ p epoch msgId now hnow ih => exact ih.check hnow
  | record _ p msgId offset now hdue hnow ih => exact ih.record hnow hdue offset

/-! ## What a check answers -/

/-- In every reachable state, a check answers with an offset exactly when its message was recorded
there in the producer's session, under the epoch of the check, is among the last `maxIds` records
of that session and is younger than the window. A check under an older epoch is fenced, and
changes nothing but how recently the producer was touched. -/
theorem check_answers (config : DedupConfig) (w : DedupWorld) (h : Reach config w) (p : Bytes)
    (epoch : Nat) (msgId : Bytes) (now : Nat) (hnow : w.clock ≤ now) :
    (∀ o, (w.registry.check p epoch msgId now).1 = .duplicate o ↔
      ∃ s, w.sessions p = some s ∧ s.epoch = epoch
        ∧ ∃ r ∈ s.records.drop (s.records.length - w.registry.config.maxIds),
          r.msgId = msgId ∧ r.offset = o
            ∧ (w.registry.config.windowNanos = 0
              ∨ now - r.instant < w.registry.config.windowNanos))
      ∧ ∀ s, w.sessions p = some s → epoch < s.epoch →
        (w.registry.check p epoch msgId now).1 = .fenced s.epoch
          ∧ ∃ win lru, w.registry.producers.lookup p = some win
            ∧ (w.registry.check p epoch msgId now).2 = { w.registry with
              producers := w.registry.producers.insert p { win with lastTouch := now }
              lru := lru } := by
  have hI := h.inv
  have hepoch := hI.touched_epoch p epoch now
  refine ⟨fun o => ?_, fun s hs hlt => ?_⟩
  · rcases lt_or_ge epoch (w.registry.touched p epoch now).epoch with hlt | hle
    · -- fenced: the session is of another epoch
      rw [check_of_lt msgId hlt]
      rw [hepoch] at hlt
      obtain ⟨s, hs, hlt', -⟩ := sessionAt_of_lt hlt
      simp only [reduceCtorEq, false_iff]
      rintro ⟨s', hs', heq, -⟩
      obtain rfl := Option.some.inj (hs.symm.trans hs')
      omega
    · rw [hI.check_eq_duplicate_iff hnow hle]
      exact exists_mem_sessionAt (hepoch ▸ hle)
  · have hlt' : epoch < (w.registry.touched p epoch now).epoch := by
      rw [hepoch, hs]
      exact hlt
    rw [check_of_lt msgId hlt', hepoch, hs]
    refine ⟨rfl, ?_⟩
    rcases hI.tracked p with ⟨-, hnone⟩ | ⟨win, s', k, hwin, -, -⟩
    · rw [hs] at hnone
      cases hnone
    · obtain ⟨lru, htouch⟩ := touch_of_tracked hwin epoch now
      exact ⟨win, lru, hwin, htouch⟩

/-- A message recorded at offset 9 is a duplicate of it for its producer's next check. -/
theorem check_answers_duplicate :
    ((((start ⟨4, 1000, 2⟩).check [1] 5 [7] 0).record [1] [7] 9 0).registry.check [1] 5 [7] 1).1
      = .duplicate 9 := by
  have hreach : Reach ⟨4, 1000, 2⟩ (((start ⟨4, 1000, 2⟩).check [1] 5 [7] 0).record [1] [7] 9 0) :=
    .record (.check .start [1] 5 [7] 0 (Nat.le_refl 0)) [1] [7] 9 0 (by decide) (Nat.le_refl 0)
  refine ((check_answers _ _ hreach [1] 5 [7] 1 (by decide)).1 9).mpr ?_
  exact ⟨⟨5, [⟨[7], 9, 0⟩]⟩, by decide, rfl, ⟨[7], 9, 0⟩, by decide, rfl, rfl, by decide⟩

/-- Two tracked producers, the first of them under epoch 5. -/
def twoTracked : DedupRegistry :=
  (((new ⟨4, 0, 2⟩).check [1] 5 [7] 0).2.check [2] 0 [7] 1).2

/-- A fenced check is not without effect: it counts as a touch, and the next producer to be
dropped is another one. -/
theorem fenced_check_moves_eviction :
    (twoTracked.check [1] 3 [7] 2).1 = .fenced 5
      ∧ ((twoTracked.check [3] 0 [7] 3).2.producers.lookup [2]).isSome = true
      ∧ (((twoTracked.check [1] 3 [7] 2).2.check [3] 0 [7] 3).2.producers.lookup [2]).isSome
        = false := by
  decide

end DedupWorld

end IronBus
