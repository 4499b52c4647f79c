import Mathlib

/-!
# Finite maps with any key

Mathlib's association lists at a constant value type, with the two things a hash map offers
beyond them: how many keys there are, and keeping or changing every entry in one pass.
-/

/-- A finite map from `α` to `β`. -/
abbrev Assoc (α β : Type) := AList fun _ : α => β

namespace Assoc

variable {α β : Type}

/-- How many keys there are. -/
def size (m : Assoc α β) : Nat := m.entries.length

/-- Changes every value, dropping those that become none. -/
def retain (m : Assoc α β) (f : β → Option β) : Assoc α β where
  entries := m.entries.filterMap fun e => (f e.2).map (Sigma.mk e.1)
  nodupKeys := by
    rw [List.nodupKeys_iff_pairwise, List.pairwise_filterMap]
    refine (List.nodupKeys_iff_pairwise.mp m.nodupKeys).imp fun {a b} hne c hc d hd => ?_
    obtain ⟨_, -, rfl⟩ := Option.map_eq_some_iff.mp hc
    obtain ⟨_, -, rfl⟩ := Option.map_eq_some_iff.mp hd
    exact hne

variable {m : Assoc α β} {a : α}

@[simp] theorem size_empty : (∅ : Assoc α β).size = 0 := rfl

theorem size_eq_keys_length (m : Assoc α β) : m.size = m.keys.length := by
  simp [size, AList.keys, List.keys]

theorem size_retain_le (m : Assoc α β) (f : β → Option β) : (m.retain f).size ≤ m.size :=
  List.length_filterMap_le _ _

variable [DecidableEq α]

theorem mem_entries_iff {b : β} :
    (⟨a, b⟩ : Sigma fun _ : α => β) ∈ m.entries ↔ m.lookup a = some b :=
  AList.mem_lookup_iff.symm

@[simp] theorem lookup_retain (m : Assoc α β) (f : β → Option β) (a : α) :
    AList.lookup a (m.retain f) = (m.lookup a).bind f := by
  apply Option.ext
  intro b
  rw [← mem_entries_iff]
  simp only [retain, List.mem_filterMap, Option.map_eq_some_iff, Option.bind_eq_some_iff]
  constructor
  · rintro ⟨⟨a', b'⟩, hmem, c, hc, heq⟩
    cases heq
    exact ⟨b', mem_entries_iff.mp hmem, hc⟩
  · rintro ⟨b', hlook, hf⟩
    exact ⟨⟨a, b'⟩, mem_entries_iff.mpr hlook, b, hf, rfl⟩

theorem lookup_erase_eq_some {k : α} {b : β} :
    AList.lookup k (AList.erase a m) = some b ↔ k ≠ a ∧ m.lookup k = some b := by
  by_cases hk : k = a
  · subst hk
    simp
  · rw [AList.lookup_erase_ne hk]
    exact (and_iff_right hk).symm

theorem lookup_insert_eq_some {k : α} {b b' : β} : AList.lookup k (AList.insert a b' m) = some b
    ↔ k = a ∧ b' = b ∨ k ≠ a ∧ m.lookup k = some b := by
  by_cases hk : k = a
  · subst hk
    simp
  · rw [AList.lookup_insert_ne hk]
    simp [hk]

theorem size_insert_of_lookup_none (b : β) (h : m.lookup a = none) :
    Assoc.size (AList.insert a b m) = m.size + 1 := by
  rw [size_eq_keys_length, size_eq_keys_length, AList.keys_insert, List.length_cons,
    List.erase_of_not_mem]
  exact fun hmem => AList.lookup_eq_none.mp h (AList.mem_keys.mpr hmem)

theorem size_insert_of_lookup_some (b : β) {b' : β} (h : m.lookup a = some b') :
    Assoc.size (AList.insert a b m) = m.size := by
  have hmem : a ∈ m.keys := AList.mem_keys.mp (AList.lookup_isSome.mp (by rw [h]; rfl))
  have hpos := List.length_pos_of_mem hmem
  rw [size_eq_keys_length, size_eq_keys_length, AList.keys_insert, List.length_cons,
    List.length_erase_of_mem hmem]
  omega

theorem size_erase_of_lookup_some {b : β} (h : m.lookup a = some b) :
    Assoc.size (AList.erase a m) + 1 = m.size := by
  have hmem : a ∈ m.keys := AList.mem_keys.mp (AList.lookup_isSome.mp (by rw [h]; rfl))
  have hpos := List.length_pos_of_mem hmem
  rw [size_eq_keys_length, size_eq_keys_length, AList.keys_erase, List.length_erase_of_mem hmem]
  omega

theorem size_insert_le (m : Assoc α β) (a : α) (b : β) :
    Assoc.size (AList.insert a b m) ≤ m.size + 1 := by
  cases h : m.lookup a with
  | none => exact (size_insert_of_lookup_none b h).le
  | some b' => exact (size_insert_of_lookup_some b h).trans_le (Nat.le_succ _)

/-- A key that is there, or has room, stays within a bound. -/
theorem size_insert_le_of_room {n : Nat} (h : (m.lookup a).isSome ∧ m.size ≤ n ∨ m.size < n)
    (b : β) : Assoc.size (AList.insert a b m) ≤ n := by
  rcases h with ⟨hsome, hle⟩ | hlt
  · obtain ⟨b', hb'⟩ := Option.isSome_iff_exists.mp hsome
    rwa [size_insert_of_lookup_some b hb']
  · exact (size_insert_le m a b).trans hlt

end Assoc
