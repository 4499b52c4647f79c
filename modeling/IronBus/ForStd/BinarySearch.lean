import Mathlib

/-!
# Binary search over a list

The search that halves a window by comparing its middle element, and the partition point built
on it. The elements must come in the order less, equal, greater of the comparison.
-/

namespace List

variable {α : Type}

/-- Halves the window of `size` elements from `base` until one is left; returns its index. -/
def searchBase (cmp : α → Ordering) (l : List α) : Nat → Nat → Nat → Nat
  | 0, base, _ => base
  | fuel + 1, base, size =>
    if size ≤ 1 then base
    else
      let half := size / 2
      let above := (l[base + half]?).all fun a => cmp a == .gt
      searchBase cmp l fuel (if above then base else base + half) (size - half)

/-- The index of an element that compares equal, or the index where one would be inserted. -/
def binarySearchBy (cmp : α → Ordering) (l : List α) : Except Nat Nat :=
  let base := searchBase cmp l l.length 0 l.length
  match l[base]? with
  | none => .error 0
  | some a =>
    match cmp a with
    | .eq => .ok base
    | .lt => .error (base + 1)
    | .gt => .error base

/-- How many leading elements satisfy `p`, when those that do come first. -/
def partitionPoint (p : α → Bool) (l : List α) : Nat :=
  match l.binarySearchBy fun a => if p a then .lt else .gt with
  | .ok i => i
  | .error i => i

/-- The elements come in the order less, equal, greater. -/
def InOrder (cmp : α → Ordering) (l : List α) : Prop :=
  l.Pairwise fun a b => (cmp a = .gt → cmp b = .gt) ∧ (cmp b = .lt → cmp a = .lt)

variable {cmp : α → Ordering} {l : List α}

theorem InOrder.getElem? (h : l.InOrder cmp) {i j : Nat} {a b : α} (hij : i < j)
    (hi : l[i]? = some a) (hj : l[j]? = some b) :
    (cmp a = .gt → cmp b = .gt) ∧ (cmp b = .lt → cmp a = .lt) := by
  obtain ⟨hi', rfl⟩ := List.getElem?_eq_some_iff.mp hi
  obtain ⟨hj', rfl⟩ := List.getElem?_eq_some_iff.mp hj
  exact List.pairwise_iff_getElem.mp h i j hi' hj' hij

/-- What is known of a window: everything behind it is greater, and its first element is not,
unless the window starts the list. -/
structure Window (cmp : α → Ordering) (l : List α) (base size : Nat) : Prop where
  pos : 0 < size
  le : base + size ≤ l.length
  first : base = 0 ∨ ∀ a, l[base]? = some a → cmp a ≠ .gt
  behind : ∀ i a, base + size ≤ i → l[i]? = some a → cmp a = .gt

/-- Halving a window leaves a window. -/
theorem Window.halve (h : l.InOrder cmp) {base size : Nat} (hw : Window cmp l base size)
    (hsize : 1 < size) :
    Window cmp l
      (if (l[base + size / 2]?).all fun a => cmp a == .gt then base else base + size / 2)
      (size - size / 2) := by
  have hle := hw.le
  have hmid : base + size / 2 < l.length := by omega
  rw [List.getElem?_eq_getElem hmid, Option.all_some]
  cases hcmp : cmp l[base + size / 2] == .gt with
  | true =>
    -- the middle element is greater, so everything behind it is
    refine ⟨by omega, by simp only [if_true]; omega, by simpa using hw.first, fun i a hi ha => ?_⟩
    simp only [if_true] at hi
    have hgt := beq_iff_eq.mp hcmp
    by_cases heq : i = base + size / 2
    · subst heq
      rw [List.getElem?_eq_getElem hmid] at ha
      rwa [← Option.some.inj ha]
    · exact (h.getElem? (i := base + size / 2) (by omega)
        (List.getElem?_eq_getElem hmid) ha).1 hgt
  | false =>
    refine ⟨by omega, by simp only [Bool.false_eq_true, if_false]; omega, .inr fun a ha => ?_,
      fun i a hi ha => ?_⟩
    · simp only [Bool.false_eq_true, if_false, List.getElem?_eq_getElem hmid] at ha
      rw [← Option.some.inj ha]
      exact fun hgt => by rw [hgt] at hcmp; exact absurd hcmp (by decide)
    · simp only [Bool.false_eq_true, if_false] at hi
      exact hw.behind i a (by omega) ha

/-- The search ends at a window of one element. -/
theorem window_searchBase (h : l.InOrder cmp) {fuel base size : Nat}
    (hw : Window cmp l base size) (hfuel : size ≤ fuel + 1) :
    Window cmp l (searchBase cmp l fuel base size) 1 := by
  induction fuel generalizing base size with
  | zero =>
    have hone : size = 1 := by have := hw.pos; omega
    rw [hone] at hw
    exact hw
  | succ fuel ih =>
    rw [searchBase]
    split
    · have hone : size = 1 := by have := hw.pos; omega
      rw [hone] at hw
      exact hw
    · exact ih (hw.halve h (by omega)) (by omega)

theorem window_of_ne_nil (hl : l ≠ []) : Window cmp l 0 l.length := by
  refine ⟨List.length_pos_of_ne_nil hl, by omega, .inl rfl, fun i a hi ha => ?_⟩
  rw [List.getElem?_eq_none (by omega)] at ha
  cases ha

/-- The search succeeds exactly when some element compares equal. -/
theorem binarySearchBy_isOk_iff (h : l.InOrder cmp) :
    (l.binarySearchBy cmp).isOk ↔ ∃ a ∈ l, cmp a = .eq := by
  by_cases hl : l = []
  · subst hl
    simp [binarySearchBy, searchBase, Except.isOk, Except.toBool]
  have hw := window_searchBase h (window_of_ne_nil hl) (Nat.le_succ _)
  unfold binarySearchBy
  generalize searchBase cmp l l.length 0 l.length = base at hw
  have hbase : base < l.length := by have := hw.le; omega
  simp only [List.getElem?_eq_getElem hbase]
  constructor
  · intro hok
    refine ⟨l[base], List.getElem_mem hbase, ?_⟩
    cases hcmp : cmp l[base] with
    | eq => rfl
    | lt => rw [hcmp] at hok; cases hok
    | gt => rw [hcmp] at hok; cases hok
  · rintro ⟨a, ha, heq⟩
    obtain ⟨j, hj, rfl⟩ := List.getElem_of_mem ha
    -- the equal element is not behind the window, so it stands at or before the last one looked at
    have hjb : j ≤ base := by
      refine Nat.le_of_not_lt fun hlt => ?_
      have hgt := hw.behind j l[j] (by omega) (List.getElem?_eq_getElem hj)
      rw [heq] at hgt
      cases hgt
    have hcmp : cmp l[base] = .eq := by
      rcases Nat.lt_or_eq_of_le hjb with hlt | rfl
      · have horder := h.getElem? hlt (List.getElem?_eq_getElem hj) (List.getElem?_eq_getElem hbase)
        cases hcmp : cmp l[base] with
        | eq => rfl
        | lt => rw [horder.2 hcmp] at heq; cases heq
        | gt =>
          rcases hw.first with h0 | hne
          · omega
          · exact absurd hcmp (hne _ (List.getElem?_eq_getElem hbase))
      · exact heq
    rw [hcmp]
    rfl

/-- The partition point of a list is where the elements that satisfy `p` end. -/
theorem partitionPoint_append {p : α → Bool} {r : List α} (hl : ∀ a ∈ l, p a = true)
    (hr : ∀ a ∈ r, p a = false) : (l ++ r).partitionPoint p = l.length := by
  have horder : (l ++ r).InOrder fun a => if p a then .lt else .gt := by
    have hp : (l ++ r).Pairwise fun a b => p b = true → p a = true := by
      refine List.pairwise_append.mpr ⟨?_, ?_, fun a ha b _ _ => hl a ha⟩
      · exact List.pairwise_of_forall_mem_list fun a ha b _ _ => hl a ha
      · exact List.pairwise_of_forall_mem_list fun a _ b hb h => by rw [hr b hb] at h; cases h
    refine hp.imp fun {a b} hab => ?_
    cases ha : p a <;> cases hb : p b <;> simp_all
  by_cases hnil : l ++ r = []
  · obtain ⟨rfl, rfl⟩ := List.append_eq_nil_iff.mp hnil
    rfl
  have hw := window_searchBase horder (window_of_ne_nil hnil) (Nat.le_succ _)
  unfold partitionPoint binarySearchBy
  generalize searchBase _ (l ++ r) (l ++ r).length 0 (l ++ r).length = base at hw
  have hbase : base < (l ++ r).length := by have := hw.le; omega
  simp only [List.getElem?_eq_getElem hbase]
  have hleft : base < l.length → p (l ++ r)[base] = true := fun hlt => by
    rw [List.getElem_append_left hlt]
    exact hl _ (List.getElem_mem hlt)
  have hright : l.length ≤ base → p (l ++ r)[base] = false := fun hle => by
    rw [List.getElem_append_right hle]
    exact hr _ (List.getElem_mem _)
  cases hp : p (l ++ r)[base] with
  | true =>
    -- the next element, if there is one, is greater, so it belongs to the right part
    have hlt : base < l.length := by
      refine Nat.lt_of_not_le fun hle => ?_
      rw [hright hle] at hp
      cases hp
    simp only [if_true]
    refine Nat.le_antisymm hlt (Nat.le_of_not_lt fun hlt' => ?_)
    have hget : (l ++ r)[base + 1]? = some l[base + 1] := by
      rw [List.getElem?_append_left hlt', List.getElem?_eq_getElem hlt']
    have hgt := hw.behind (base + 1) _ (Nat.le_refl _) hget
    rw [hl _ (List.getElem_mem hlt')] at hgt
    cases hgt
  | false =>
    have hle : l.length ≤ base := by
      refine Nat.le_of_not_lt fun hlt => ?_
      rw [hleft hlt] at hp
      cases hp
    simp only [Bool.false_eq_true, if_false]
    rcases hw.first with h0 | hne
    · omega
    · refine absurd ?_ (hne _ (List.getElem?_eq_getElem hbase))
      rw [hp]
      rfl

end List
