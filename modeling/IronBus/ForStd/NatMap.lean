import Mathlib

/-!
# Finite maps keyed by natural numbers

A partial function with a bound past which it is undefined, so that its keys can be listed in
ascending order. Lookups and updates compute; two maps are equal when they agree everywhere,
up to their bounds, which no operation observes.
-/

/-- A finite map from natural numbers. -/
structure NatMap (α : Type) where
  /-- The value at a key. -/
  get : Nat → Option α
  /-- An upper bound on the keys. -/
  bound : Nat
  get_of_bound_le : ∀ i, bound ≤ i → get i = none

namespace NatMap

variable {α : Type}

/-- The empty map. -/
def empty : NatMap α := ⟨fun _ => none, 0, fun _ _ => rfl⟩

instance : Inhabited (NatMap α) := ⟨empty⟩

/-- Binds `k` to `v`, replacing any earlier binding. -/
def insert (m : NatMap α) (k : Nat) (v : α) : NatMap α where
  get i := if i = k then some v else m.get i
  bound := max m.bound (k + 1)
  get_of_bound_le i h := by
    rw [if_neg (by omega), m.get_of_bound_le i (by omega)]

/-- Removes `k`. -/
def erase (m : NatMap α) (k : Nat) : NatMap α where
  get i := if i = k then none else m.get i
  bound := m.bound
  get_of_bound_le i h := by
    split
    · rfl
    · exact m.get_of_bound_le i h

/-- Changes the value at `k`, if there is one. -/
def modify (m : NatMap α) (k : Nat) (f : α → α) : NatMap α where
  get i := if i = k then (m.get i).map f else m.get i
  bound := m.bound
  get_of_bound_le i h := by
    simp [m.get_of_bound_le i h]

/-- Keeps the keys that satisfy `p`. -/
def filterKeys (m : NatMap α) (p : Nat → Bool) : NatMap α where
  get i := if p i then m.get i else none
  bound := m.bound
  get_of_bound_le i h := by
    simp [m.get_of_bound_le i h]

/-- Changes every value. -/
def map (m : NatMap α) (f : α → α) : NatMap α where
  get i := (m.get i).map f
  bound := m.bound
  get_of_bound_le i h := by
    simp [m.get_of_bound_le i h]

/-- The keys, in ascending order. -/
def keys (m : NatMap α) : List Nat := (List.range m.bound).filter fun i => (m.get i).isSome

/-- The values, in the order of their keys. -/
def values (m : NatMap α) : List α := m.keys.filterMap m.get

variable {m : NatMap α} {i : Nat}

@[simp] theorem get_empty (i : Nat) : (empty : NatMap α).get i = none := rfl

@[simp] theorem get_insert_self (m : NatMap α) (k : Nat) (v : α) :
    (m.insert k v).get k = some v := if_pos rfl

theorem get_insert_of_ne {k : Nat} {v : α} (h : i ≠ k) :
    (m.insert k v).get i = m.get i := if_neg h

theorem get_insert (m : NatMap α) (k : Nat) (v : α) :
    (m.insert k v).get = Function.update m.get k (some v) := by
  funext i
  by_cases hik : i = k
  · subst hik
    rw [get_insert_self, Function.update_self]
  · rw [get_insert_of_ne hik, Function.update_of_ne hik]

@[simp] theorem get_erase_self (m : NatMap α) (k : Nat) : (m.erase k).get k = none := if_pos rfl

theorem get_erase_of_ne {k : Nat} (h : i ≠ k) :
    (m.erase k).get i = m.get i := if_neg h

@[simp] theorem get_modify_self (m : NatMap α) (k : Nat) (f : α → α) :
    (m.modify k f).get k = (m.get k).map f := if_pos rfl

theorem get_modify_of_ne {k : Nat} {f : α → α} (h : i ≠ k) :
    (m.modify k f).get i = m.get i := if_neg h

theorem get_filterKeys (m : NatMap α) (p : Nat → Bool) (i : Nat) :
    (m.filterKeys p).get i = if p i then m.get i else none := rfl

@[simp] theorem get_map (m : NatMap α) (f : α → α) (i : Nat) :
    (m.map f).get i = (m.get i).map f := rfl

/-- The last binding of a key counts. -/
theorem insert_insert (m : NatMap α) (k : Nat) (v v' : α) :
    (m.insert k v').insert k v = m.insert k v := by
  have hget : (fun i => if i = k then some v else if i = k then some v' else m.get i)
      = fun i => if i = k then some v else m.get i := by
    funext i
    split <;> rfl
  have hbound : max (max m.bound (k + 1)) (k + 1) = max m.bound (k + 1) := by omega
  simp only [insert, hget, hbound]

theorem mem_keys : i ∈ m.keys ↔ ∃ v, m.get i = some v := by
  rw [keys, List.mem_filter, List.mem_range, Option.isSome_iff_exists]
  constructor
  · rintro ⟨-, h⟩
    exact h
  · rintro ⟨v, h⟩
    refine ⟨Nat.lt_of_not_le fun hle => ?_, v, h⟩
    rw [m.get_of_bound_le i hle] at h
    cases h

/-- The keys come in ascending order. -/
theorem keys_sorted (m : NatMap α) : m.keys.Pairwise (· < ·) :=
  List.pairwise_lt_range.filter _

/-- An ascending list of exactly the bound keys is the list of keys. -/
theorem keys_eq_of_mem_iff {l : List Nat} (hs : l.Pairwise (· < ·))
    (hm : ∀ i, i ∈ l ↔ ∃ v, m.get i = some v) : m.keys = l := by
  have hperm : m.keys.Perm l := by
    rw [List.perm_ext_iff_of_nodup (m.keys_sorted.imp Nat.ne_of_lt) (hs.imp Nat.ne_of_lt)]
    intro i
    rw [mem_keys, hm]
  exact hperm.eq_of_pairwise (fun a b _ _ h h' => absurd h (Nat.lt_asymm h')) m.keys_sorted hs

/-- Changing a value keeps the keys. -/
@[simp] theorem keys_modify (m : NatMap α) (k : Nat) (f : α → α) :
    (m.modify k f).keys = m.keys := by
  refine keys_eq_of_mem_iff m.keys_sorted fun i => ?_
  rw [mem_keys]
  by_cases hik : i = k
  · subst hik
    simp
  · rw [get_modify_of_ne hik]

/-- Counting values is counting keys. -/
theorem countP_values (m : NatMap α) (p : α → Bool) :
    m.values.countP p = m.keys.countP fun k => (m.get k).any p := by
  rw [values, List.countP_filterMap]
  refine List.countP_congr fun k _ => ?_
  cases m.get k <;> rfl

end NatMap
