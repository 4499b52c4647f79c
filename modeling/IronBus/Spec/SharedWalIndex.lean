import IronBus.Native.SharedWal
import IronBus.Spec.HeadLogCorrect

/-!
# The index of the shared log

A stream's positions are ranks: its slot in the index is determined by the records of the log and
the logical start.

Key results:
- `Indexed.push`, `trim_at`, `scanIndex_spec`: appending, trimming and scanning keep that
- `rebuildIndex_spec`: so does the way through the reap snapshot, which stores the ranks that a scan
  can no longer count
-/

/-- ASCII is UTF-8. -/
theorem Bytes.validUtf8_of_ascii {b : Bytes} (h : ∀ x ∈ b, x < 0x80) : b.validUtf8 = true := by
  fun_induction Bytes.validUtf8 b <;> simp_all

namespace IronBus

open AList

open List

open StreamId

open Tagged

/-! ## Names -/

namespace StreamId

variable {name : Bytes}

theorem ext_name {a b : StreamId} (h : a.name = b.name) : a = b := by
  cases a
  cases b
  cases h
  rfl

theorem named_name {id : StreamId} (h : id.isDefault = false) : named id.name = some id := by
  have hvalid := id.valid.resolve_left (by simpa [isDefault] using h)
  rw [named, dif_pos hvalid]

theorem name_of_named {id : StreamId} (h : named name = some id) :
    id.name = name ∧ id.isDefault = false := by
  unfold named at h
  split at h
  · next hvalid =>
    cases h
    refine ⟨rfl, ?_⟩
    cases name with
    | nil => simp [isValidStreamName] at hvalid
    | cons b name => simp [isDefault]
  · cases h

/-- A valid name is short and ASCII. -/
theorem valid_name (h : isValidStreamName name = true) :
    name.length ≤ 128 ∧ name.validUtf8 = true := by
  simp only [isValidStreamName, Bool.and_eq_true, decide_eq_true_eq, all_eq_true] at h
  refine ⟨h.1.2, Bytes.validUtf8_of_ascii fun b hb => ?_⟩
  have hgraphic := h.2 b hb
  simp only [isAsciiGraphic, Bool.and_eq_true, decide_eq_true_eq] at hgraphic
  exact UInt8.lt_iff_toNat_lt.mpr
    (lt_of_le_of_lt (UInt8.le_iff_toNat_le.mp hgraphic.2) (by decide))

theorem named_isSome : (named name).isSome = isValidStreamName name := by
  unfold named
  split
  · next h => exact h.symm
  · next h => simpa using h

end StreamId

variable {bases : List (Bytes × Nat)}

theorem tagToStreamId_name {id : StreamId} (h : id.isDefault = false) :
    tagToStreamId id.name = some id := by
  have hnamed := named_name h
  have hvalid : isValidStreamName id.name = true := by
    rw [← named_isSome, hnamed]
    rfl
  rw [tagToStreamId, if_pos (valid_name hvalid).2, hnamed]

/-! ## The snapshot -/

theorem takeBytes_append {a b : Bytes} {n : Nat} (h : n = a.length) :
    takeBytes (a ++ b) n = some (a, b) := by
  subst h
  simp [takeBytes]

theorem decodeReapBase_encode {name : Bytes} {base : Nat} (rest : Bytes)
    (hname : isValidStreamName name = true) (hbase : base ≤ u64Max) :
    decodeReapBase (encodeReapBase (name, base) ++ rest) = some ((name, base), rest) := by
  obtain ⟨hlen, hutf⟩ := valid_name hname
  have hmin : min name.length (2 ^ 16 - 1) = name.length := by omega
  simp only [decodeReapBase, encodeReapBase, append_assoc, hmin]
  rw [takeBytes_append (by simp)]
  simp only [Option.bind_eq_bind, Option.bind_some]
  rw [Bytes.toNatLE_ofNatLE (by omega), takeBytes_append rfl]
  simp only [Option.bind_some]
  rw [takeBytes_append (by simp)]
  simp only [Option.bind_some, hutf, if_true]
  rw [Bytes.toNatLE_ofNatLE (by simp only [u64Max] at hbase; omega)]

/-- The entries as a map. -/
def basesMap (acc : Assoc Bytes Nat) (bases : List (Bytes × Nat)) : Assoc Bytes Nat :=
  bases.foldl (fun m e => m.insert e.1 e.2) acc

/-- Entries that can be read back: valid names, none twice, bases in range. -/
structure Encodable (bases : List (Bytes × Nat)) : Prop where
  names : ∀ e ∈ bases, isValidStreamName e.1 = true
  le : ∀ e ∈ bases, e.2 ≤ u64Max
  nodup : (bases.map Prod.fst).Nodup

theorem Encodable.tail {e : Bytes × Nat} (h : Encodable (e :: bases)) : Encodable bases :=
  ⟨fun e' he' => h.names e' (mem_cons_of_mem _ he'),
    fun e' he' => h.le e' (mem_cons_of_mem _ he'), (nodup_cons.mp h.nodup).2⟩

theorem decodeReapBases_encode (acc : Assoc Bytes Nat) (rest : Bytes) (h : Encodable bases)
    (hfresh : ∀ e ∈ bases, acc.lookup e.1 = none) :
    decodeReapBases bases.length (bases.flatMap encodeReapBase ++ rest) acc =
      some (basesMap acc bases, rest) := by
  induction bases generalizing acc with
  | nil => rfl
  | cons e bases ih =>
    obtain ⟨hnot, -⟩ := nodup_cons.mp h.nodup
    rw [length_cons, decodeReapBases, flatMap_cons, append_assoc,
      decodeReapBase_encode _ (h.names e mem_cons_self) (h.le e mem_cons_self)]
    simp only [Option.bind_eq_bind, Option.bind_some, hfresh e mem_cons_self,
      Option.isSome_none, Bool.false_eq_true, if_false]
    refine ih _ h.tail fun e' he' => ?_
    have hne : e'.1 ≠ e.1 := fun heq => hnot (heq ▸ mem_map_of_mem he')
    rw [lookup_insert_ne hne]
    exact hfresh e' (mem_cons_of_mem _ he')

/-- The snapshot is read back as it was written. -/
theorem decodeReapSnapshot_encode {earliest : Nat} (he : earliest ≤ u64Max) (h : Encodable bases)
    (hlen : bases.length < 2 ^ 32) :
    decodeReapSnapshot (encodeReapSnapshot earliest bases) = some (earliest, basesMap ∅ bases) := by
  have hmin : min bases.length (2 ^ 32 - 1) = bases.length := by omega
  simp only [decodeReapSnapshot, encodeReapSnapshot, append_assoc, hmin]
  rw [takeBytes_append (by simp)]
  simp only [Option.bind_eq_bind, Option.bind_some, if_true]
  rw [takeBytes_append (by simp)]
  simp only [Option.bind_some]
  rw [takeBytes_append (by simp)]
  simp only [Option.bind_some]
  have hbases := decodeReapBases_encode (∅ : Assoc Bytes Nat) [] h fun e _ => lookup_empty _
  rw [append_nil] at hbases
  rw [Bytes.toNatLE_ofNatLE (by omega), hbases]
  simp only [Option.bind_some, if_true]
  rw [Bytes.toNatLE_ofNatLE (by simp only [u64Max] at he; omega)]

/-- A payload that fits its slot holds few streams. -/
theorem length_lt_of_encode {earliest : Nat}
    (h : (encodeReapSnapshot earliest bases).length ≤ sharedWalReapPayload) :
    bases.length < 2 ^ 32 := by
  have hflat : bases.length ≤ (bases.flatMap encodeReapBase).length := by
    induction bases with
    | nil => simp
    | cons e bases ih =>
      have hrest : (encodeReapSnapshot earliest bases).length ≤ sharedWalReapPayload := by
        simp only [encodeReapSnapshot, length_append, flatMap_cons,
          Bytes.length_ofNatLE] at h ⊢
        omega
      have := ih hrest
      simp only [flatMap_cons, length_append, encodeReapBase, length_cons,
        Bytes.length_ofNatLE]
      omega
  simp only [encodeReapSnapshot, length_append, sharedWalReapPayload] at h
  omega

theorem lookup_basesMap_of_notMem {acc : Assoc Bytes Nat} {name : Bytes}
    (h : name ∉ bases.map Prod.fst) : (basesMap acc bases).lookup name = acc.lookup name := by
  induction bases generalizing acc with
  | nil => rfl
  | cons e bases ih =>
    rw [map_cons, mem_cons, not_or] at h
    rw [basesMap, foldl_cons, ← basesMap, ih h.2, lookup_insert_ne h.1]

theorem lookup_basesMap_of_mem {acc : Assoc Bytes Nat} {e : Bytes × Nat}
    (hnodup : (bases.map Prod.fst).Nodup) (h : e ∈ bases) :
    (basesMap acc bases).lookup e.1 = some e.2 := by
  induction bases generalizing acc with
  | nil => cases h
  | cons e' bases ih =>
    obtain ⟨hnot, hrest⟩ := nodup_cons.mp hnodup
    rw [basesMap, foldl_cons, ← basesMap]
    rcases mem_cons.mp h with rfl | h
    · rw [lookup_basesMap_of_notMem hnot, lookup_insert]
    · exact ih hrest h

/-! ## Slots as ranks -/

section Slots

variable {ρ : Type}

/-- The record is the stream's. -/
def Tagged.isOf (id : StreamId) (r : Tagged ρ) : Bool := r.tag = id.name

namespace StreamSlot

/-- The slot a stream has in a log that starts at `start`. -/
def «at» (rs : List (Tagged ρ)) (start : Nat) (id : StreamId) : StreamSlot :=
  let base := (rs.take start).countP (isOf id)
  ⟨base, (rs.findIdxs (isOf id)).drop base⟩

variable {n start : Nat} {p : Tagged ρ → Bool} {rs : List (Tagged ρ)}

theorem countP_take_le (p : Tagged ρ → Bool) (rs : List (Tagged ρ)) {m : Nat} (h : m ≤ n) :
    (rs.take m).countP p ≤ (rs.take n).countP p :=
  (take_sublist_take_left h).countP_le

theorem base_at_le (rs : List (Tagged ρ)) (start : Nat) (id : StreamId) :
    («at» rs start id).base ≤ rs.countP (isOf id) :=
  (take_sublist start rs).countP_le

/-- The next position is the number of the stream's records. -/
theorem nextPosition_at (rs : List (Tagged ρ)) (start : Nat) (id : StreamId) :
    («at» rs start id).nextPosition = rs.countP (isOf id) := by
  have hle := base_at_le rs start id
  simp only [nextPosition, «at», length_drop, length_findIdxs] at hle ⊢
  omega

/-- The positions split where the list does. -/
theorem findIdxs_split (p : Tagged ρ → Bool) (rs : List (Tagged ρ)) (n : Nat) :
    rs.findIdxs p = (rs.take n).findIdxs p ++ (rs.drop n).findIdxs p (rs.take n).length := by
  conv_lhs => rw [← take_append_drop n rs, findIdxs_append, Nat.zero_add]

theorem le_of_mem_findIdxs_drop {o : Nat} (h : o ∈ (rs.drop n).findIdxs p (rs.take n).length) :
    n ≤ o := by
  have hge := ge_of_mem_findIdxs _ h
  have hlt := lt_add_of_mem_findIdxs _ h
  rw [length_take] at hge hlt
  rw [length_drop] at hlt
  omega

theorem lt_of_mem_findIdxs_take {o : Nat} (h : o ∈ (rs.take n).findIdxs p) : o < n := by
  have hlt := lt_add_of_mem_findIdxs _ h
  rw [length_take] at hlt
  omega

/-- A record of the stream lies below an offset exactly if it is among the first ones. -/
theorem getElem?_findIdxs_lt_iff {k o : Nat} (h : (rs.findIdxs p)[k]? = some o) :
    o < n ↔ k < (rs.take n).countP p := by
  rw [findIdxs_split p rs n, getElem?_append, length_findIdxs] at h
  split at h
  · next hk => exact ⟨fun _ => hk, fun _ => lt_of_mem_findIdxs_take (mem_of_getElem? h)⟩
  · next hk =>
    have hle := le_of_mem_findIdxs_drop (mem_of_getElem? h)
    exact ⟨fun hlt => absurd hlt (not_lt.mpr hle), fun hlt => absurd hlt hk⟩

theorem length_takeWhile_findIdxs (p : Tagged ρ → Bool) (rs : List (Tagged ρ)) (n k : Nat) :
    (((rs.findIdxs p).drop k).takeWhile (· < n)).length = (rs.take n).countP p - k := by
  rw [findIdxs_split p rs n, drop_append, takeWhile_append_of_pos, length_append,
    length_drop, length_findIdxs]
  · have hnil (j : Nat) :
        (((rs.drop n).findIdxs p (rs.take n).length).drop j).takeWhile (· < n) = [] := by
      rw [takeWhile_eq_nil_iff]
      intro hpos
      have hle := le_of_mem_findIdxs_drop (mem_of_mem_drop (get_mem _ ⟨0, hpos⟩))
      simpa using hle
    rw [hnil]
    rfl
  · intro o ho
    exact decide_eq_true (lt_of_mem_findIdxs_take (mem_of_mem_drop ho))

theorem survivingBelow_at (rs : List (Tagged ρ)) (id : StreamId) :
    («at» rs start id).survivingBelow n =
      (rs.take n).countP (isOf id) - (rs.take start).countP (isOf id) :=
  length_takeWhile_findIdxs _ _ _ _

/-- The records of the stream below an offset, counted from its base. -/
theorem base_add_survivingBelow (rs : List (Tagged ρ)) (h : start ≤ n) (id : StreamId) :
    («at» rs start id).base + («at» rs start id).survivingBelow n =
      (rs.take n).countP (isOf id) := by
  have hle := countP_take_le (isOf id) rs h
  rw [survivingBelow_at]
  simp only [«at»]
  omega

/-- Trimming moves the start. -/
theorem trim_at (rs : List (Tagged ρ)) {stop : Nat} (h : start ≤ stop) (id : StreamId) :
    («at» rs start id).trim stop = «at» rs stop id := by
  have hbase := base_add_survivingBelow rs h id
  simp only [trim, hbase]
  simp only [«at», drop_drop] at hbase ⊢
  rw [hbase]

/-- Appending adds the record's offset to its stream's slot and to no other. -/
theorem at_push (rs : List (Tagged ρ)) (r : Tagged ρ) (h : start ≤ rs.length) (id : StreamId) :
    «at» (rs ++ [r]) start id =
      if r.isOf id then { «at» rs start id with
        offsets := («at» rs start id).offsets ++ [rs.length] }
      else «at» rs start id := by
  have hle := base_at_le rs start id
  simp only [«at»] at hle ⊢
  rw [take_append_of_le_length h, findIdxs_append, findIdxs_singleton,
    Nat.zero_add]
  split
  · rw [drop_append_of_le_length (by rwa [length_findIdxs])]
  · rw [append_nil]

/-- A stream without a slot has no record. -/
theorem at_eq_default {id : StreamId} (h : «at» rs start id = .default) :
    rs.countP (isOf id) = 0 := by
  have hnext := nextPosition_at rs start id
  rw [h] at hnext
  exact hnext.symm

/-- The record at a position from the base on. -/
theorem getElem?_offsets {pos : Nat} {id : StreamId} (hpos : («at» rs start id).base ≤ pos) :
    ∀ r, (rs.filter (isOf id))[pos]? = some r ↔
      ∃ o, («at» rs start id).offsets[pos - («at» rs start id).base]? = some o
        ∧ rs[o]? = some r := by
  intro r
  simp only [«at»] at hpos ⊢
  rw [List.getElem?_drop, Nat.add_sub_cancel' hpos]
  constructor
  · intro h
    obtain ⟨hlt, heq⟩ := List.getElem?_eq_some_iff.mp h
    rw [List.getElem_filter_eq_getElem_getElem_findIdxs] at heq
    exact ⟨_, List.getElem?_eq_getElem _, List.getElem?_eq_some_iff.mpr ⟨_, heq⟩⟩
  · rintro ⟨o, ho, hr⟩
    obtain ⟨hlt, rfl⟩ := List.getElem?_eq_some_iff.mp ho
    have hlt' : pos < (rs.filter (isOf id)).length := by
      rw [← List.countP_eq_length_filter, ← List.length_findIdxs]
      exact hlt
    rw [List.getElem?_eq_getElem hlt', List.getElem_filter_eq_getElem_getElem_findIdxs]
    obtain ⟨_, hr⟩ := List.getElem?_eq_some_iff.mp hr
    exact congrArg some hr

end StreamSlot

/-! ## The scan -/

namespace SharedWal

/-- The index gives every stream its slot. -/
def Indexed (rs : List (Tagged ρ)) (start : Nat) (index : Assoc StreamId StreamSlot) : Prop :=
  ∀ id, (index.lookup id).getD .default = StreamSlot.at rs start id

/-- Every record's tag names a stream. -/
def WellTagged (rs : List (Tagged ρ)) : Prop :=
  ∀ r ∈ rs, ∃ id : StreamId, id.isDefault = false ∧ r.tag = id.name

variable {rs : List (Tagged ρ)} {start : Nat} {acc : Assoc StreamId StreamSlot × Nat}
  {bases : Assoc Bytes Nat}

/-- A stream with a record is a named one. -/
theorem WellTagged.named (h : WellTagged rs) {id : StreamId}
    (hpos : 0 < rs.countP (isOf id)) : id.isDefault = false := by
  obtain ⟨r, hr, hof⟩ := countP_pos_iff.mp hpos
  obtain ⟨id', hid', hname⟩ := h r hr
  have hof' : r.tag = id.name := by simpa [isOf] using hof
  exact ext_name (hname.symm.trans hof') ▸ hid'

theorem Indexed.push {index : Assoc StreamId StreamSlot} (h : Indexed rs start index)
    (hstart : start ≤ rs.length) (id : StreamId) (body : ρ) :
    let slot := (index.lookup id).getD .default
    Indexed (rs ++ [⟨id.name, body⟩]) start
      (index.insert id { slot with offsets := slot.offsets ++ [rs.length] }) := by
  intro slot id'
  rw [StreamSlot.at_push rs _ hstart]
  by_cases hid : id' = id
  · subst hid
    rw [lookup_insert, if_pos (by simp [isOf]), ← h id']
    rfl
  · have hne : ¬ (isOf id' (⟨id.name, body⟩ : Tagged ρ) = true) := by
      intro hof
      exact hid (ext_name (by simpa [isOf] using hof)).symm
    rw [lookup_insert_ne hid, if_neg hne, h id']

theorem indexRecord_indexed {r : Tagged ρ} (h : Indexed rs start acc.1)
    (hstart : start ≤ rs.length) (htag : WellTagged [r]) :
    Indexed (rs ++ [r]) start (indexRecord acc (rs.length, r)).1
      ∧ (indexRecord acc (rs.length, r)).2 = acc.2 := by
  obtain ⟨id, hid, hname⟩ := htag r (mem_singleton_self r)
  obtain ⟨tag, body⟩ := r
  cases hname
  simp only [indexRecord, tagToStreamId_name hid]
  exact ⟨h.push hstart id body, trivial⟩

theorem foldl_indexRecord_indexed {run : List (Tagged ρ)} (h : Indexed rs start acc.1)
    (hstart : start ≤ rs.length) (htag : WellTagged run) :
    let res := ((run.zipIdx rs.length).map Prod.swap).foldl indexRecord acc
    Indexed (rs ++ run) start res.1 ∧ res.2 = acc.2 := by
  induction run generalizing rs acc with
  | nil => exact ⟨by simpa using h, rfl⟩
  | cons r run ih =>
    obtain ⟨hone, hcount⟩ := indexRecord_indexed h hstart fun r' hr' =>
      htag r' (mem_singleton.mp hr' ▸ mem_cons_self)
    have hlen : start ≤ (rs ++ [r]).length := by
      rw [length_append]
      omega
    have hrest := ih hone hlen fun r' hr' => htag r' (mem_cons_of_mem _ hr')
    rw [length_append, length_singleton, append_assoc, hcount] at hrest
    exact hrest

/-- The scan goes through, and its index gives every stream its slot. -/
theorem scanIndex_spec {log : HeadLog (Tagged ρ)} (hwf : log.Wf)
    (htag : WellTagged log.log.records) {rounds cursor : Nat} (hlo : log.earliestOffset ≤ start)
    (hstart : start ≤ cursor) (hcursor : cursor ≤ log.flushedOffset)
    (hrounds : log.flushedOffset ≤ cursor + rounds)
    (h : Indexed (log.log.records.take cursor) start acc.1) :
    ∃ index, scanIndex log rounds cursor acc = .ok (index, acc.2)
      ∧ Indexed (log.log.records.take log.flushedOffset) start index := by
  induction rounds generalizing cursor acc with
  | zero =>
    obtain rfl : cursor = log.flushedOffset := by omega
    exact ⟨acc.1, rfl, h⟩
  | succ rounds ih =>
    rw [scanIndex]
    by_cases hdone : log.flushedOffset ≤ cursor
    · obtain rfl : cursor = log.flushedOffset := by omega
      rw [if_pos hdone]
      exact ⟨acc.1, rfl, h⟩
    · rw [if_neg hdone]
      obtain ⟨run, hread, hne, -, hle, htake⟩ := HeadLog.readRangeRaw_run hwf
        (show 0 < recoveryScanChunk by decide) (hlo.trans hstart) (by omega)
      rw [hread]
      obtain _ | ⟨r, run⟩ := run
      · exact absurd rfl hne
      have hlen : (log.log.records.take cursor).length = cursor := by
        have hnext : log.flushedOffset ≤ log.log.records.length := hwf.flushed_le
        rw [length_take]
        omega
      have hrun : WellTagged (r :: run) := fun r' hr' => htag r'
        (mem_of_mem_take (htake ▸ mem_append_right _ hr'))
      obtain ⟨hidx, hcount⟩ := foldl_indexRecord_indexed h (by omega) hrun
      rw [hlen, ← htake] at hidx
      rw [hlen] at hcount
      obtain ⟨index, hscan, hall⟩ := ih (by omega) hle
        (by rw [length_cons]; omega) hidx
      rw [hcount] at hscan
      exact ⟨index, hscan, hall⟩

/-! ## The way through the snapshot -/

/-- What a snapshot says is true of a log: it starts at `start`, and the bases are the ranks there.
-/
structure Snapshot (rs : List (Tagged ρ)) (start : Nat) (bases : Assoc Bytes Nat) : Prop where
  names : ∀ e ∈ bases.entries, isValidStreamName e.1 = true
  base : ∀ id : StreamId, (bases.lookup id.name).getD 0 = (rs.take start).countP (isOf id)

/-- A snapshot stays true of a log with the same front part. -/
theorem Snapshot.congr {rs' : List (Tagged ρ)} (h : Snapshot rs start bases)
    (htake : rs'.take start = rs.take start) :
    Snapshot rs' start bases :=
  ⟨h.names, fun id => htake ▸ h.base id⟩

theorem snapshot_empty (rs : List (Tagged ρ)) : Snapshot rs 0 (∅ : Assoc Bytes Nat) :=
  ⟨nofun, fun id => by simp⟩

theorem seedIndex_spec {es : List (Sigma fun _ : Bytes => Nat)}
    (h : ∀ e ∈ es, isValidStreamName e.1 = true) :
    ∃ index, seedIndex (es.map fun e => (e.1, e.2)) = .ok index
      ∧ ∀ id : StreamId, index.lookup id = (es.dlookup id.name).map (⟨·, []⟩) := by
  induction es with
  | nil => exact ⟨∅, rfl, fun id => rfl⟩
  | cons e es ih =>
    obtain ⟨index, hseed, hlook⟩ := ih fun e' he' => h e' (mem_cons_of_mem _ he')
    obtain ⟨id, hid⟩ := Option.isSome_iff_exists.mp
      ((named_isSome).trans (h e mem_cons_self))
    obtain ⟨hname, -⟩ := name_of_named hid
    refine ⟨index.insert id ⟨e.2, []⟩, by simp [seedIndex, hid, hseed, Except.map], fun id' => ?_⟩
    obtain ⟨name, base⟩ := e
    cases hname
    by_cases heq : id' = id
    · subst heq
      rw [lookup_insert, dlookup_cons_eq]
      rfl
    · have hne : id'.name ≠ id.name := fun hn => heq (ext_name hn)
      rw [lookup_insert_ne heq, dlookup_cons_ne _ _ hne, hlook]

/-- The index the checkpoint seeds is right for the part of the log below its start. -/
theorem Snapshot.seed (h : Snapshot rs start bases) :
    ∃ index, seedIndex (bases.entries.map fun e => (e.1, e.2)) = .ok index
      ∧ Indexed (rs.take start) start index := by
  obtain ⟨index, hseed, hlook⟩ := seedIndex_spec h.names
  refine ⟨index, hseed, fun id => ?_⟩
  have hbase := h.base id
  rw [AList.lookup] at hbase
  have hnil : ((rs.take start).findIdxs (isOf id)).drop
      ((rs.take start).countP (isOf id)) = [] :=
    drop_eq_nil_of_le (length_findIdxs.le)
  rw [hlook, StreamSlot.at, take_take, Nat.min_self, hnil]
  rcases hfind : bases.entries.dlookup id.name with _ | base
  · rw [hfind] at hbase
    simp only [Option.map_none, Option.getD_none, StreamSlot.default]
    rw [← hbase]
    rfl
  · rw [hfind] at hbase
    simp only [Option.map_some, Option.getD_some]
    rw [← hbase]
    rfl

/-- Opening over a log and a true snapshot goes through, and the index is right. -/
theorem rebuildIndex_spec {log : HeadLog (Tagged ρ)} (hwf : log.Wf)
    (htag : WellTagged log.log.records) (h : Snapshot log.log.records start bases)
    (hlo : log.earliestOffset ≤ start) (hhi : start ≤ log.flushedOffset) :
    ∃ index, rebuildIndex log start bases = .ok (index, 0)
      ∧ Indexed (log.log.records.take log.flushedOffset) start index := by
  obtain ⟨seed, hseed, hidx⟩ := h.seed
  obtain ⟨index, hscan, hall⟩ := @scanIndex_spec ρ start (seed, 0) log hwf htag
    log.flushedOffset start hlo le_rfl hhi (Nat.le_add_left _ _) hidx
  exact ⟨index, by rw [rebuildIndex, hseed]; exact hscan, hall⟩

/-! ## Writing the snapshot -/

section Write

variable {w : SharedWal ρ} {rs : List (Tagged ρ)} {start stop : Nat}

theorem mem_reapBases {e : Bytes × Nat} :
    e ∈ w.reapBases stop ↔
      ∃ id slot, w.index.lookup id = some slot
        ∧ e = (id.name, slot.base + slot.survivingBelow stop) ∧ 0 < e.2 := by
  simp only [reapBases, mem_mergeSort, mem_filter, mem_map, decide_eq_true_eq]
  constructor
  · rintro ⟨⟨⟨id, slot⟩, hmem, rfl⟩, hpos⟩
    exact ⟨id, slot, Assoc.mem_entries_iff.mp hmem, rfl, hpos⟩
  · rintro ⟨id, slot, hlook, rfl, hpos⟩
    exact ⟨⟨⟨id, slot⟩, Assoc.mem_entries_iff.mpr hlook, rfl⟩, hpos⟩

theorem nodup_reapBases (w : SharedWal ρ) (stop : Nat) :
    ((w.reapBases stop).map Prod.fst).Nodup := by
  have hnames : ((w.index.entries.map fun e =>
      (e.1.name, e.2.base + e.2.survivingBelow stop)).map Prod.fst).Nodup := by
    rw [map_map, nodup_iff_pairwise_ne, pairwise_map]
    exact (nodupKeys_iff_pairwise.mp w.index.nodupKeys).imp fun hne hname =>
      hne (ext_name hname)
  have hperm := (mergeSort_perm ((w.index.entries.map fun e =>
    (e.1.name, e.2.base + e.2.survivingBelow stop)).filter fun e => 0 < e.2)
    fun a b => decide (a.1 ≤ b.1)).map Prod.fst
  exact hperm.nodup_iff.mpr (hnames.sublist (filter_sublist.map Prod.fst))

/-- A slot's base at a later start is a rank. -/
theorem Indexed.base_at (h : Indexed rs start w.index) (hstop : start ≤ stop) {id : StreamId}
    {slot : StreamSlot} (hlook : w.index.lookup id = some slot) :
    slot.base + slot.survivingBelow stop = (rs.take stop).countP (isOf id) := by
  have hat := h id
  rw [hlook, Option.getD_some] at hat
  rw [hat, StreamSlot.base_add_survivingBelow rs hstop]

/-- What is written is a rank of a named stream. -/
theorem Indexed.of_mem_reapBases (h : Indexed rs start w.index) (htag : WellTagged rs)
    (hstop : start ≤ stop) {e : Bytes × Nat} (he : e ∈ w.reapBases stop) :
    isValidStreamName e.1 = true ∧ e.2 ≤ rs.length := by
  obtain ⟨id, slot, hid, rfl, hpos⟩ := mem_reapBases.mp he
  have hle := (take_sublist stop rs).countP_le (p := isOf id)
  rw [h.base_at hstop hid] at hpos ⊢
  refine ⟨?_, hle.trans countP_le_length⟩
  rw [← named_isSome, named_name (htag.named (hpos.trans_le hle))]
  rfl

theorem encodable_reapBases (h : Indexed rs start w.index) (htag : WellTagged rs)
    (hstop : start ≤ stop) (hlen : rs.length ≤ u64Max) :
    Encodable (w.reapBases stop) :=
  ⟨fun _ he => (h.of_mem_reapBases htag hstop he).1,
    fun _ he => (h.of_mem_reapBases htag hstop he).2.trans hlen, nodup_reapBases w stop⟩

/-- The bases written are the ranks at the new start. -/
theorem snapshot_reapBases (h : Indexed rs start w.index) (htag : WellTagged rs)
    (hstop : start ≤ stop) :
    Snapshot rs stop (basesMap ∅ (w.reapBases stop)) := by
  constructor
  · rintro ⟨name, base⟩ he
    have hlook := Assoc.mem_entries_iff.mp he
    by_cases hmem : name ∈ (w.reapBases stop).map Prod.fst
    · obtain ⟨e, hentry, rfl⟩ := mem_map.mp hmem
      exact (h.of_mem_reapBases htag hstop hentry).1
    · rw [lookup_basesMap_of_notMem hmem, lookup_empty] at hlook
      cases hlook
  · intro id
    by_cases hmem : id.name ∈ (w.reapBases stop).map Prod.fst
    · obtain ⟨e, he, hname⟩ := mem_map.mp hmem
      obtain ⟨id', slot, hid, rfl, -⟩ := mem_reapBases.mp he
      obtain rfl : id' = id := ext_name hname
      have hlook := @lookup_basesMap_of_mem _ ∅ _ (nodup_reapBases w stop) he
      simp only at hlook
      rw [hlook, Option.getD_some, h.base_at hstop hid]
    · rw [lookup_basesMap_of_notMem hmem, lookup_empty, Option.getD_none]
      rcases hlook : w.index.lookup id with _ | slot
      · have hzero := StreamSlot.at_eq_default ((h id).symm.trans (by rw [hlook]; rfl))
        exact (Nat.le_zero.mp (hzero ▸ (take_sublist stop rs).countP_le)).symm
      · have hbase := h.base_at hstop hlook
        by_contra hne
        exact hmem (mem_map.mpr ⟨_, mem_reapBases.mpr ⟨id, slot, hlook, rfl, by
          dsimp only; omega⟩, rfl⟩)

end Write

end SharedWal

end Slots

end IronBus
