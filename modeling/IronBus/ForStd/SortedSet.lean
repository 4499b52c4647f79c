import Mathlib

/-!
# Sorted sets

Finite sets kept in increasing order, as a B-tree set iterates over them. The order is any strict
total one.
-/

variable {α : Type} {lt : α → α → Prop}

namespace List

/-- Inserts an element into an increasing list, unless it is there. -/
def insertSorted (lt : α → α → Prop) [DecidableRel lt] [DecidableEq α] (a : α) : List α → List α
  | [] => [a]
  | b :: l => if lt a b then a :: b :: l else if a = b then b :: l else b :: insertSorted lt a l

variable [DecidableRel lt] [DecidableEq α]

@[simp] theorem mem_insertSorted {a x : α} {l : List α} :
    x ∈ insertSorted lt a l ↔ x = a ∨ x ∈ l := by
  induction l with
  | nil => simp [insertSorted]
  | cons b l ih =>
    simp only [insertSorted]
    split
    · exact mem_cons
    · split
      · subst_vars
        simp
      · simp only [mem_cons, ih]
        tauto

theorem pairwise_insertSorted [IsTrans α lt] [Std.Trichotomous lt] (a : α) {l : List α}
    (h : l.Pairwise lt) : (insertSorted lt a l).Pairwise lt := by
  induction l with
  | nil => exact pairwise_singleton _ _
  | cons b l ih =>
    obtain ⟨hb, hl⟩ := pairwise_cons.mp h
    simp only [insertSorted]
    split
    · rename_i hab
      refine pairwise_cons.mpr ⟨fun x hx => ?_, h⟩
      rcases mem_cons.mp hx with rfl | hx
      · exact hab
      · exact trans_of lt hab (hb x hx)
    · split
      · exact h
      · rename_i hab hne
        refine pairwise_cons.mpr ⟨fun x hx => ?_, ih hl⟩
        rcases mem_insertSorted.mp hx with rfl | hx
        · exact ((Std.Trichotomous.rel_or_eq_or_rel_swap (r := lt)).resolve_left hab).resolve_left
            hne
        · exact hb x hx

end List

/-- A finite set, in increasing order. -/
structure SortedSet (lt : α → α → Prop) where
  elems : List α
  sorted : elems.Pairwise lt

namespace SortedSet

def empty : SortedSet lt := ⟨[], .nil⟩

instance : EmptyCollection (SortedSet lt) := ⟨empty⟩

instance : Membership α (SortedSet lt) := ⟨fun s a => a ∈ s.elems⟩

variable [DecidableRel lt] [DecidableEq α] [IsTrans α lt] [Std.Trichotomous lt]

def insert (a : α) (s : SortedSet lt) : SortedSet lt :=
  ⟨s.elems.insertSorted lt a, List.pairwise_insertSorted a s.sorted⟩

def erase (a : α) (s : SortedSet lt) : SortedSet lt :=
  ⟨s.elems.erase a, s.sorted.sublist List.erase_sublist⟩

/-- The elements below a bound. -/
def below (bound : α) (s : SortedSet lt) : List α := s.elems.filter (lt · bound)

variable {a x : α} {s : SortedSet lt}

omit [DecidableRel lt] [DecidableEq α] [IsTrans α lt] [Std.Trichotomous lt] in
@[simp] theorem not_mem_empty : x ∉ (∅ : SortedSet lt) := fun h => nomatch (h : x ∈ [])

@[simp] theorem mem_insert : x ∈ s.insert a ↔ x = a ∨ x ∈ s := List.mem_insertSorted

omit [DecidableRel lt] [IsTrans α lt] [Std.Trichotomous lt] in
@[simp] theorem mem_erase [Std.Irrefl lt] : x ∈ s.erase a ↔ x ≠ a ∧ x ∈ s := by
  have hnodup : s.elems.Nodup := s.sorted.imp fun {b c} hlt heq => by
    subst heq
    exact Std.Irrefl.irrefl b hlt
  exact hnodup.mem_erase_iff

end SortedSet
