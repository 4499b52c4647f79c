import IronBus.Native.Txn

/-!
# The transaction table keeps its structures in step

The prepared transactions, their age index and the tombstones are three views of one lifecycle:
each id is on one side at most, and the index lists the prepared side. Every move between the sides
keeps that, a revert at any time included. Only the bound on the prepared side depends on when a
revert comes: one that undoes the resolve right before it takes back the slot that resolve freed,
any other may pass the capacity by one.

## Key results

- `TxnTable.Inv.prepare`, `Inv.resolve`, `Inv.revertResolvedToPrepared`, `Inv.restore`: what ties
  the structures together is kept by each call
- `TxnTable.Inv.mem_unresolvedBefore`: what the back-check lists
- `TxnWorld.Reach.inv`, `TxnWorld.table_invariants`: the same for every sequence of calls
-/

namespace IronBus

open TxnTable AList

namespace TxnTable

variable {t : TxnTable} {id : Bytes}

/-- What ties the structures of the table together. -/
structure Inv (t : TxnTable) : Prop where
  disjoint : ∀ id e, t.prepared.lookup id = some e → t.resolved.lookup id = none
  aged : ∀ at' id, (at', id) ∈ t.preparedByAge ↔
    ∃ e, t.prepared.lookup id = some e ∧ e.instant = at'
  instant : ∀ id e, t.prepared.lookup id = some e → e.instant ≤ u64Max
  tombstone : ∀ id e, t.resolved.lookup id = some e → ∃ outcome, e.state = .resolved outcome
  covered : TouchHeap.Covers TxnEntry.instant t.resolvedLru t.resolved
  room : 0 < t.config.maxResolvedTombstones

variable {outcome : TxnOutcome} {now : Nat}

theorem Inv.new (config : TxnConfig) : Inv (new config) where
  disjoint _ _ _ := rfl
  aged at' id := ⟨fun h => absurd h SortedSet.not_mem_empty, fun ⟨_, h, _⟩ => by cases h⟩
  instant _ _ h := by cases h
  tombstone _ _ h := by cases h
  covered _ _ h := by cases h
  room := lt_of_lt_of_le Nat.one_pos (le_max_right _ _)

/-! ## The moves every call is made of -/

/-- A transaction that is on neither side enters the prepared one. -/
theorem Inv.insertPrepared (h : t.Inv) (hprep : t.prepared.lookup id = none)
    (hres : t.resolved.lookup id = none) (now : UInt64) : (t.insertPrepared id now.toNat).Inv := by
  have hlook {id' : Bytes} {e : TxnEntry} :
      (t.insertPrepared id now.toNat).prepared.lookup id' = some e ↔
        id' = id ∧ ⟨.prepared, now.toNat⟩ = e ∨ id' ≠ id ∧ t.prepared.lookup id' = some e :=
    Assoc.lookup_insert_eq_some
  refine ⟨fun id' e he => ?_, fun at' id' => ?_, fun id' e he => ?_, h.tombstone, h.covered, h.room⟩
  · obtain ⟨rfl, -⟩ | ⟨-, he⟩ := hlook.mp he
    · exact hres
    · exact h.disjoint id' e he
  · show (at', id') ∈ t.preparedByAge.insert (now.toNat, id) ↔ _
    rw [SortedSet.mem_insert, h.aged]
    simp only [hlook]
    by_cases hid : id' = id
    · subst hid
      simp [hprep, eq_comm]
    · simp [hid]
  · obtain ⟨-, rfl⟩ | ⟨-, he⟩ := hlook.mp he
    · exact Nat.le_of_lt_succ now.toNat_lt
    · exact h.instant id' e he

theorem removePrepared_of_none (h : t.prepared.lookup id = none) : t.removePrepared id = t := by
  rw [removePrepared, h]

theorem removePrepared_of_some {e : TxnEntry} (h : t.prepared.lookup id = some e) :
    t.removePrepared id = { t with
      prepared := t.prepared.erase id
      preparedByAge := t.preparedByAge.erase (e.instant, id) } := by
  rw [removePrepared, h]

@[simp] theorem removePrepared_resolved : (t.removePrepared id).resolved = t.resolved := by
  unfold removePrepared
  split <;> rfl

@[simp] theorem removePrepared_config : (t.removePrepared id).config = t.config := by
  unfold removePrepared
  split <;> rfl

@[simp] theorem lookup_removePrepared : (t.removePrepared id).prepared.lookup id = none := by
  cases h : t.prepared.lookup id with
  | none => rw [removePrepared_of_none h, h]
  | some e =>
    rw [removePrepared_of_some h]
    exact lookup_erase _ _

/-- Taking a transaction out keeps the index in step. -/
theorem Inv.removePrepared (h : t.Inv) : (t.removePrepared id).Inv := by
  cases hid : t.prepared.lookup id with
  | none => rwa [removePrepared_of_none hid]
  | some e =>
    rw [removePrepared_of_some hid]
    have hlook {id' : Bytes} {e' : TxnEntry} : lookup id' (t.prepared.erase id) = some e' ↔
        id' ≠ id ∧ t.prepared.lookup id' = some e' := Assoc.lookup_erase_eq_some
    refine ⟨fun id' e' he => h.disjoint id' e' (hlook.mp he).2, fun at' id' => ?_,
      fun id' e' he => h.instant id' e' (hlook.mp he).2, h.tombstone, h.covered, h.room⟩
    show (at', id') ∈ t.preparedByAge.erase (e.instant, id) ↔ _
    rw [SortedSet.mem_erase, h.aged]
    constructor
    · rintro ⟨hne, e', he', hat⟩
      have hidne : id' ≠ id := fun heq => by
        subst heq
        obtain rfl := Option.some.inj (hid.symm.trans he')
        exact hne (by rw [hat])
      exact ⟨e', hlook.mpr ⟨hidne, he'⟩, hat⟩
    · rintro ⟨e', he', hat⟩
      obtain ⟨hne, he'⟩ := hlook.mp he'
      exact ⟨fun heq => hne (Prod.ext_iff.mp heq).2, e', he', hat⟩

/-- A transaction that is not prepared leaves a tombstone. -/
theorem Inv.putResolved (h : t.Inv) (hprep : t.prepared.lookup id = none) (outcome : TxnOutcome)
    (now : Nat) : (t.putResolved id outcome now).Inv := by
  have hlook {id' : Bytes} {e : TxnEntry} :
      (t.putResolved id outcome now).resolved.lookup id' = some e ↔
        id' = id ∧ ⟨.resolved outcome, now⟩ = e ∨ id' ≠ id ∧ t.resolved.lookup id' = some e :=
    Assoc.lookup_insert_eq_some
  refine ⟨fun id' e he => ?_, h.aged, h.instant, fun id' e he => ?_,
    TouchHeap.Covers.push fun id' e he => ?_, h.room⟩
  · have hne : id' ≠ id := fun heq => by
      have he : t.prepared.lookup id' = some e := he
      rw [heq, hprep] at he
      cases he
    exact (lookup_insert_ne hne).trans (h.disjoint id' e he)
  · obtain ⟨-, rfl⟩ | ⟨-, he⟩ := hlook.mp he
    · exact ⟨outcome, rfl⟩
    · exact h.tombstone id' e he
  · obtain ⟨rfl, rfl⟩ | ⟨-, he⟩ := hlook.mp he
    · exact .inr ⟨rfl, rfl⟩
    · exact .inl (h.covered id' e he)

/-- Dropping old tombstones. -/
theorem Inv.evict (h : t.Inv) (cap : Nat) :
    { t with
      resolved := (TouchHeap.evict TxnEntry.instant cap t.resolvedLru t.resolved).1
      resolvedLru := (TouchHeap.evict TxnEntry.instant cap t.resolvedLru t.resolved).2 }.Inv where
  disjoint id e he := Option.eq_none_iff_forall_ne_some.mpr fun e' he' => by
    cases (h.disjoint id e he).symm.trans (TouchHeap.lookup_evict he')
  aged := h.aged
  instant := h.instant
  tombstone id e he := h.tombstone id e (TouchHeap.lookup_evict he)
  covered := h.covered.evict
  room := h.room

@[simp] theorem insertResolvedTombstone_prepared :
    (t.insertResolvedTombstone id outcome now).prepared = t.prepared := by
  simp only [insertResolvedTombstone, putResolved]
  split <;> rfl

@[simp] theorem insertResolvedTombstone_config :
    (t.insertResolvedTombstone id outcome now).config = t.config := by
  simp only [insertResolvedTombstone, putResolved]
  split <;> rfl

theorem Inv.insertResolvedTombstone (h : t.Inv) (hprep : t.prepared.lookup id = none)
    (outcome : TxnOutcome) (now : Nat) : (t.insertResolvedTombstone id outcome now).Inv := by
  simp only [TxnTable.insertResolvedTombstone]
  split
  · exact (h.evict _).putResolved hprep outcome now
  · exact h.putResolved hprep outcome now

/-- A new tombstone takes the number of tombstones to the cap at most. -/
theorem Inv.size_insertResolvedTombstone (h : t.Inv) (id : Bytes) (outcome : TxnOutcome)
    (now : Nat) :
    (t.insertResolvedTombstone id outcome now).resolved.size
      ≤ max t.config.maxResolvedTombstones t.resolved.size := by
  simp only [TxnTable.insertResolvedTombstone]
  split_ifs with hroom
  · exact Assoc.size_insert_le_of_room
      (.inr (lt_max_of_lt_left (h.covered.size_evict_lt h.room))) _
  · rw [not_and_or, not_le] at hroom
    refine Assoc.size_insert_le_of_room (hroom.imp (fun hsome => ⟨?_, le_max_right _ _⟩)
      lt_max_of_lt_left) _
    simpa [Option.isSome_iff_ne_none] using hsome

/-! ## The calls -/

/-- What a prepare can do: leave the table as it is, or enter a transaction that is new. -/
theorem Inv.prepare_cases (h : t.Inv) (id : Bytes) (now : Nat) :
    (t.prepare id now).2 = t ∨ (t.prepare id now = (.ok .prepared, t.insertPrepared id now)
      ∧ t.prepared.lookup id = none ∧ t.resolved.lookup id = none
      ∧ t.prepared.size < t.config.maxPrepared) := by
  unfold prepare
  split
  · exact .inl rfl
  split
  · exact .inl rfl
  rename_i hprep
  split
  · exact .inl rfl
  rename_i hstate
  split_ifs with hcap
  · exact .inl rfl
  · refine .inr ⟨rfl, by simpa using hprep, ?_, not_le.mp hcap⟩
    cases hid : t.resolved.lookup id with
    | none => rfl
    | some e =>
      obtain ⟨outcome, ho⟩ := h.tombstone id e hid
      exact absurd (by simp [hid, ho]) (hstate outcome)

/-- What a resolve can do: leave the table as it is, or move a prepared transaction over. -/
theorem resolve_cases (t : TxnTable) (id : Bytes) (outcome : TxnOutcome) (now : Nat) :
    ((t.resolve id outcome now).2 = t ∧ (t.resolve id outcome now).1 ≠ .ok .resolved)
      ∨ ((t.prepared.lookup id).isSome ∧ t.resolve id outcome now
        = (.ok .resolved, (t.removePrepared id).insertResolvedTombstone id outcome now)) := by
  unfold resolve
  split
  · exact .inl ⟨rfl, by simp⟩
  · split
    · exact .inr ⟨‹_›, rfl⟩
    · split
      · split
        · exact .inl ⟨rfl, by simp⟩
        · exact .inl ⟨rfl, by simp⟩
      · exact .inl ⟨rfl, by simp⟩

theorem Inv.prepare (h : t.Inv) (now : UInt64) : (t.prepare id now.toNat).2.Inv := by
  rcases h.prepare_cases id now.toNat with heq | ⟨heq, hprep, hres, -⟩
  · rwa [heq]
  · rw [heq]
    exact h.insertPrepared hprep hres now

theorem Inv.resolve (h : t.Inv) (id : Bytes) (outcome : TxnOutcome) (now : Nat) :
    (t.resolve id outcome now).2.Inv := by
  rcases t.resolve_cases id outcome now with ⟨heq, -⟩ | ⟨-, heq⟩
  · rwa [heq]
  · rw [heq]
    exact h.removePrepared.insertResolvedTombstone lookup_removePrepared outcome now

/-- Taking a tombstone out. -/
theorem Inv.eraseResolved (h : t.Inv) : { t with resolved := t.resolved.erase id }.Inv := by
  have hlook {id' : Bytes} {e : TxnEntry} (he : lookup id' (t.resolved.erase id) = some e) :
      t.resolved.lookup id' = some e := (Assoc.lookup_erase_eq_some.mp he).2
  refine ⟨fun id' e he => ?_, h.aged, h.instant, fun id' e he => h.tombstone id' e (hlook he),
    fun id' e he => h.covered id' e (hlook he), h.room⟩
  refine Option.eq_none_iff_forall_ne_some.mpr fun e' he' => ?_
  cases (h.disjoint id' e he).symm.trans (hlook he')

theorem Inv.revertResolvedToPrepared (h : t.Inv) (now : UInt64) :
    (t.revertResolvedToPrepared id now.toNat).Inv := by
  unfold TxnTable.revertResolvedToPrepared
  split_ifs with hres
  · refine h.eraseResolved.insertPrepared ?_ (lookup_erase _ _) now
    refine Option.eq_none_iff_forall_ne_some.mpr fun e he => ?_
    rw [h.disjoint id e he] at hres
    cases hres
  · exact h

/-- A replayed prepare must not meet a tombstone; a replayed resolution supersedes a prepare. -/
theorem Inv.restore (h : t.Inv) {state : TxnState}
    (hstate : state = .prepared → t.resolved.lookup id = none) (now : UInt64) :
    (t.restore id state now.toNat).Inv := by
  cases state with
  | prepared =>
    exact h.removePrepared.insertPrepared lookup_removePrepared (by simpa using hstate rfl) now
  | resolved outcome => exact h.removePrepared.putResolved lookup_removePrepared outcome now.toNat

/-! ## What the calls answer -/

theorem prepare_of_error {error : TxnError} (h : (t.prepare id now).1 = .error error) :
    (t.prepare id now).2 = t := by
  unfold prepare at h ⊢
  split
  · rfl
  · split
    · rfl
    · split
      · rfl
      · split
        · rfl
        · simp_all

theorem resolve_of_error {error : TxnError} (h : (t.resolve id outcome now).1 = .error error) :
    (t.resolve id outcome now).2 = t := by
  rcases t.resolve_cases id outcome now with ⟨heq, -⟩ | ⟨-, heq⟩
  · exact heq
  · rw [heq] at h
    cases h

/-- A resolve of a transaction that has a tombstone changes nothing. -/
theorem Inv.resolve_of_resolved (h : t.Inv) {e : TxnEntry} (he : t.resolved.lookup id = some e)
    (outcome : TxnOutcome) (now : Nat) : (t.resolve id outcome now).2 = t := by
  rcases t.resolve_cases id outcome now with ⟨heq, -⟩ | ⟨hprep, -⟩
  · exact heq
  · obtain ⟨e', he'⟩ := Option.isSome_iff_exists.mp hprep
    cases (h.disjoint id e' he').symm.trans he

/-- The back-check lists what was prepared up to the cutoff. -/
theorem Inv.mem_unresolvedBefore (h : t.Inv) {cutoff : Nat} (hcut : cutoff ≤ u64Max)
    {instant : Nat} : (id, instant) ∈ t.unresolvedBefore cutoff ↔
      (∃ e, t.prepared.lookup id = some e ∧ e.instant = instant) ∧ instant ≤ cutoff := by
  rw [← h.aged]
  unfold unresolvedBefore checkedAdd
  split
  · rename_i next hnext
    have hnext : next = cutoff + 1 := by
      split at hnext
      · exact (Option.some.inj hnext).symm
      · cases hnext
    subst hnext
    have hlt : ageLt (instant, id) (cutoff + 1, []) ↔ instant ≤ cutoff := by
      simp only [ageLt, List.not_lt_nil, and_false, or_false]
      omega
    rw [List.mem_map_swap, SortedSet.below, List.mem_filter, decide_eq_true_iff, hlt]
    rfl
  · rename_i hnext
    have hmax : cutoff = u64Max := by
      split at hnext
      · cases hnext
      · omega
    rw [List.mem_map_swap]
    refine ⟨fun hmem => ⟨hmem, ?_⟩, And.left⟩
    obtain ⟨e, he, rfl⟩ := (h.aged _ _).mp hmem
    exact hmax ▸ h.instant _ e he

/-- The back-check lists the oldest first. -/
theorem unresolvedBefore_sorted (cutoff : Nat) :
    (t.unresolvedBefore cutoff).Pairwise fun a b => ageLt a.swap b.swap := by
  unfold unresolvedBefore
  split
  · exact List.pairwise_map.mpr (t.preparedByAge.sorted.sublist List.filter_sublist)
  · exact List.pairwise_map.mpr t.preparedByAge.sorted

/-! ## Sizes -/

theorem size_insertPrepared_le : (t.insertPrepared id now).prepared.size ≤ t.prepared.size + 1 :=
  Assoc.size_insert_le _ _ _

theorem size_removePrepared_le : (t.removePrepared id).prepared.size ≤ t.prepared.size := by
  cases h : t.prepared.lookup id with
  | none => rw [removePrepared_of_none h]
  | some e =>
    rw [removePrepared_of_some h]
    have := Assoc.size_erase_of_lookup_some h
    simp only
    omega

/-- A resolve frees the slot of its transaction. -/
theorem size_removePrepared_lt (h : (t.prepared.lookup id).isSome) :
    (t.removePrepared id).prepared.size + 1 = t.prepared.size := by
  obtain ⟨e, he⟩ := Option.isSome_iff_exists.mp h
  rw [removePrepared_of_some he]
  exact Assoc.size_erase_of_lookup_some he

end TxnTable

/-! ## Sequences of calls -/

/-- The table, the transaction the last call freshly resolved, how many transactions there were on
each side right after the last restore, and how many reverts since then did not undo the resolve
right before them. -/
structure TxnWorld where
  table : TxnTable
  justResolved : Option Bytes
  restoredPrepared : Nat
  restoredResolved : Nat
  strayReverts : Nat

namespace TxnWorld

def start (config : TxnConfig) : TxnWorld := ⟨.new config, none, 0, 0, 0⟩

def prepare (w : TxnWorld) (id : Bytes) (now : Nat) : TxnWorld :=
  { w with table := (w.table.prepare id now).2, justResolved := none }

def resolve (w : TxnWorld) (id : Bytes) (outcome : TxnOutcome) (now : Nat) : TxnWorld :=
  { w with
    table := (w.table.resolve id outcome now).2
    justResolved :=
      match (w.table.resolve id outcome now).1 with
      | .ok .resolved => some id
      | _ => none }

def revertResolvedToPrepared (w : TxnWorld) (id : Bytes) (now : Nat) : TxnWorld :=
  { w with
    table := w.table.revertResolvedToPrepared id now
    justResolved := none
    strayReverts := if w.justResolved = some id then w.strayReverts else w.strayReverts + 1 }

def cancelPrepared (w : TxnWorld) (id : Bytes) : TxnWorld :=
  { w with table := w.table.cancelPrepared id, justResolved := none }

def restore (w : TxnWorld) (id : Bytes) (state : TxnState) (instant : Nat) : TxnWorld :=
  let table := w.table.restore id state instant
  ⟨table, none, table.prepared.size, table.resolved.size, 0⟩

/-- How many transactions may be prepared: the capacity or what the last restore left, and one more
for each stray revert. -/
def preparedBound (w : TxnWorld) : Nat :=
  max w.table.config.maxPrepared w.restoredPrepared + w.strayReverts

/-- The states that calls reach. A prepare is restored only for a transaction that has no
tombstone. -/
inductive Reach (config : TxnConfig) : TxnWorld → Prop where
  | start : Reach config (start config)
  | prepare {w : TxnWorld} (h : Reach config w) (id : Bytes) (now : UInt64) :
    Reach config (w.prepare id now.toNat)
  | resolve {w : TxnWorld} (h : Reach config w) (id : Bytes) (outcome : TxnOutcome) (now : UInt64) :
    Reach config (w.resolve id outcome now.toNat)
  | revert {w : TxnWorld} (h : Reach config w) (id : Bytes) (now : UInt64) :
    Reach config (w.revertResolvedToPrepared id now.toNat)
  | cancel {w : TxnWorld} (h : Reach config w) (id : Bytes) : Reach config (w.cancelPrepared id)
  | restore {w : TxnWorld} (h : Reach config w) (id : Bytes) (state : TxnState)
      (hstate : state = .prepared → w.table.resolved.lookup id = none) (instant : UInt64) :
    Reach config (w.restore id state instant.toNat)

/-- What every sequence of calls keeps. -/
structure Inv (config : TxnConfig) (w : TxnWorld) : Prop where
  table : w.table.Inv
  config : w.table.config = (new config).config
  prepared : w.table.prepared.size ≤ w.preparedBound
  resolved : w.table.resolved.size ≤ max w.table.config.maxResolvedTombstones w.restoredResolved
  freed : w.justResolved.isSome → w.table.prepared.size < w.preparedBound

variable {config : TxnConfig} {w : TxnWorld} {id : Bytes}

theorem Inv.start : Inv config (start config) :=
  ⟨.new config, rfl, Nat.zero_le _, Nat.zero_le _, fun h => by cases h⟩

/-- A call that is not a fresh resolve or a restore, from what it does to the table. -/
theorem Inv.step (h : Inv config w) {t : TxnTable} (ht : t.Inv) {strayReverts : Nat}
    (hconfig : t.config = w.table.config)
    (hprep : t.prepared.size ≤ max w.table.config.maxPrepared w.restoredPrepared + strayReverts)
    (hres : t.resolved.size ≤ max w.table.config.maxResolvedTombstones w.restoredResolved) :
    Inv config { w with table := t, justResolved := none, strayReverts := strayReverts } :=
  ⟨ht, hconfig.trans h.config, by rwa [preparedBound, hconfig], by rwa [hconfig],
    fun hj => by cases hj⟩

theorem Inv.prepare (h : Inv config w) (now : UInt64) : Inv config (w.prepare id now.toNat) := by
  refine h.step (h.table.prepare now) ?_ ?_ ?_
  all_goals rcases h.table.prepare_cases id now.toNat with heq | ⟨heq, -, -, hcap⟩ <;> rw [heq]
  · rfl
  · exact h.prepared
  · refine size_insertPrepared_le.trans ?_
    omega
  · exact h.resolved
  · exact h.resolved

theorem Inv.resolve (h : Inv config w) (outcome : TxnOutcome) (now : Nat) :
    Inv config (w.resolve id outcome now) := by
  rcases w.table.resolve_cases id outcome now with ⟨heq, hne⟩ | ⟨hprep, heq⟩
  · have hsame : w.resolve id outcome now = { w with table := w.table, justResolved := none } := by
      simp only [TxnWorld.resolve, heq]
    rw [hsame]
    exact h.step h.table rfl h.prepared h.resolved
  · -- the slot the transaction leaves is free until the next call
    have hsize := size_removePrepared_lt hprep
    have hle := h.prepared
    rw [preparedBound] at hle
    refine ⟨h.table.resolve id outcome now, ?_, ?_, ?_, fun _ => ?_⟩
    all_goals
      simp only [TxnWorld.resolve, preparedBound, heq, insertResolvedTombstone_config,
        insertResolvedTombstone_prepared, removePrepared_config]
    · exact h.config
    · omega
    · have hins := TxnTable.Inv.size_insertResolvedTombstone (t := w.table.removePrepared id)
        h.table.removePrepared id outcome now
      rw [removePrepared_config, removePrepared_resolved] at hins
      exact hins.trans (Nat.max_le.mpr ⟨le_max_left _ _, h.resolved⟩)
    · omega

/-- A revert that undoes the resolve right before it takes the slot that is free; a stray one is
counted. -/
theorem Inv.revertResolvedToPrepared (h : Inv config w) (now : UInt64) :
    Inv config (w.revertResolvedToPrepared id now.toNat) := by
  have hle := h.prepared
  refine h.step (h.table.revertResolvedToPrepared now) ?_ ?_ ?_
  all_goals
    unfold TxnTable.revertResolvedToPrepared
    split
  · rfl
  · rfl
  · refine size_insertPrepared_le.trans ?_
    dsimp only
    rw [preparedBound] at hle
    split_ifs with hid
    · have hfreed := h.freed (by rw [hid]; rfl)
      rw [preparedBound] at hfreed
      omega
    · omega
  · rw [preparedBound] at hle
    split_ifs <;> omega
  · obtain ⟨e, he⟩ := Option.isSome_iff_exists.mp ‹_›
    have hsize := Assoc.size_erase_of_lookup_some he
    have hres := h.resolved
    simp only [insertPrepared]
    omega
  · exact h.resolved

theorem Inv.cancelPrepared (h : Inv config w) : Inv config (w.cancelPrepared id) :=
  h.step h.table.removePrepared removePrepared_config
    (size_removePrepared_le.trans h.prepared)
    ((congrArg Assoc.size removePrepared_resolved).trans_le h.resolved)

theorem Inv.restore (h : Inv config w) {state : TxnState}
    (hstate : state = .prepared → w.table.resolved.lookup id = none) (instant : UInt64) :
    Inv config (w.restore id state instant.toNat) := by
  refine ⟨h.table.restore hstate instant, ?_, le_max_right _ _, le_max_right _ _,
    fun hj => by cases hj⟩
  cases state with
  | prepared => exact removePrepared_config.trans h.config
  | resolved => exact removePrepared_config.trans h.config

theorem Reach.inv (h : Reach config w) : Inv config w := by
  induction h with
  | start => exact .start
  | prepare _ id now ih => exact ih.prepare now
  | resolve _ id outcome now ih => exact ih.resolve outcome now.toNat
  | revert _ id now ih => exact ih.revertResolvedToPrepared now
  | cancel _ id ih => exact ih.cancelPrepared
  | restore _ id state hstate instant ih => exact ih.restore hstate instant

/-- In every state that calls reach: no transaction is both prepared and resolved; the age index
lists the prepared ones; the counts stay within their capacities, or within what the last restore
left, but for one more prepared transaction with each stray revert; a refused call changes nothing;
a conflicting resolve keeps the outcome; and the back-check lists the transactions prepared up to
its cutoff, oldest first. -/
theorem table_invariants (config : TxnConfig) (w : TxnWorld) (h : Reach config w) :
    (∀ id, ¬ ((w.table.prepared.lookup id).isSome ∧ (w.table.resolved.lookup id).isSome))
      ∧ (∀ instant id, (instant, id) ∈ w.table.preparedByAge ↔
        ∃ e, w.table.prepared.lookup id = some e ∧ e.instant = instant)
      ∧ w.table.config = (new config).config
      ∧ w.table.prepared.size
        ≤ max w.table.config.maxPrepared w.restoredPrepared + w.strayReverts
      ∧ w.table.resolved.size ≤ max w.table.config.maxResolvedTombstones w.restoredResolved
      ∧ (∀ id now error, (w.table.prepare id now).1 = .error error →
        (w.table.prepare id now).2 = w.table)
      ∧ (∀ id outcome now error, (w.table.resolve id outcome now).1 = .error error →
        (w.table.resolve id outcome now).2 = w.table)
      ∧ (∀ id e prior outcome now, w.table.resolved.lookup id = some e →
        e.state = .resolved prior → outcome ≠ prior →
          (w.table.resolve id outcome now).2.resolved.lookup id = some e)
      ∧ ∀ cutoff : UInt64,
        (w.table.unresolvedBefore cutoff.toNat).Pairwise (fun a b => ageLt a.swap b.swap)
        ∧ ∀ id instant, (id, instant) ∈ w.table.unresolvedBefore cutoff.toNat ↔
          (∃ e, w.table.prepared.lookup id = some e ∧ e.instant = instant)
            ∧ instant ≤ cutoff.toNat := by
  have hI := h.inv
  refine ⟨fun id ⟨hprep, hres⟩ => ?_, hI.table.aged, hI.config, hI.prepared, hI.resolved,
    fun id now error => prepare_of_error,
    fun id outcome now error => resolve_of_error,
    fun id e prior outcome now he _ _ => ?_,
    fun cutoff => ⟨unresolvedBefore_sorted _, fun id instant => ?_⟩⟩
  · obtain ⟨e, he⟩ := Option.isSome_iff_exists.mp hprep
    rw [hI.table.disjoint id e he] at hres
    cases hres
  · rw [hI.table.resolve_of_resolved he]
    exact he
  · exact hI.table.mem_unresolvedBefore (Nat.le_of_lt_succ cutoff.toNat_lt)

/-- A transaction whose commit was undone and repeated cannot be rolled back. -/
theorem table_invariants_committed :
    let w := ((start ⟨1, 1⟩).prepare [1] 0).resolve [1] .committed 1
    let w := (w.revertResolvedToPrepared [1] 2).resolve [1] .committed 3
    (w.table.resolve [1] .rolledBack 4).2.resolved.lookup [1]
      = some ⟨.resolved .committed, 3⟩ :=
  (table_invariants ⟨1, 1⟩ _ (.resolve (.revert (.resolve (.prepare .start [1] 0) [1] .committed 1)
    [1] 2) [1] .committed 3)).2.2.2.2.2.2.2.1 [1]
      ⟨.resolved .committed, 3⟩ .committed .rolledBack 4 (by decide) rfl (by decide)

/-- A replay fills the table past its capacities, a prepare replayed after the resolution of its id
leaves the id on both sides, where a rollback then flips the commit, the back-check lists a
transaction prepared at the cutoff itself, and a revert after another prepare took the free slot
passes the capacity with no replay at all. -/
theorem restore_passes_bounds :
    let t := ((new ⟨1, 1⟩).restore [1] (.resolved .committed) 0).restore [1] .prepared 1
    let full := t.restore [2] .prepared 1
    let late := (((start ⟨1, 1⟩).prepare [1] 0).resolve [1] .committed 1).prepare [2] 2
    let reverted := late.revertResolvedToPrepared [1] 3
    (t.prepared.lookup [1]).isSome ∧ (t.resolved.lookup [1]).isSome
      ∧ (t.resolve [1] .rolledBack 2).2.resolved.lookup [1] = some ⟨.resolved .rolledBack, 2⟩
      ∧ full.config.maxPrepared < full.prepared.size
      ∧ full.unresolvedBefore 1 = [([1], 1), ([2], 1)]
      ∧ reverted.table.config.maxPrepared < reverted.table.prepared.size
      ∧ reverted.restoredPrepared = 0 ∧ reverted.strayReverts = 1 := by
  decide

end TxnWorld

end IronBus
