import Mathlib

/-!
# List lemmas for the standard library

Candidates for the standard library: changing, inserting and removing the element that follows a
known front part, counting what a relation between elements rules out, and the longest common front
part of two lists.
-/

namespace List

variable {α : Type}

@[simp] theorem modify_append_length (l r : List α) (a : α) (f : α → α) :
    (l ++ a :: r).modify l.length f = l ++ f a :: r := by
  rw [List.modify_eq_take_cons_drop (by simp)]
  simp

@[simp] theorem insertIdx_append_length (l r : List α) (a : α) :
    (l ++ r).insertIdx l.length a = l ++ a :: r := by
  induction l with
  | nil => simp
  | cons b l ih => simp [ih]

@[simp] theorem eraseIdx_append_length (l r : List α) (a : α) :
    (l ++ a :: r).eraseIdx l.length = l ++ r := by
  rw [List.eraseIdx_append_of_length_le (Nat.le_refl _)]
  simp

@[simp] theorem getElem?_append_length (l r : List α) : (l ++ r)[l.length]? = r.head? := by
  rw [List.getElem?_append_right (Nat.le_refl _), Nat.sub_self, List.head?_eq_getElem?]

/-- At most one element satisfies `p` when no two of them do. -/
theorem countP_le_one_of_pairwise {p : α → Bool} {l : List α}
    (h : l.Pairwise fun a b => p a = true → p b = false) : l.countP p ≤ 1 := by
  induction l with
  | nil => simp
  | cons a l ih =>
    obtain ⟨ha, hl⟩ := List.pairwise_cons.mp h
    cases hp : p a with
    | false =>
      rw [List.countP_cons_of_neg (by simp [hp])]
      exact ih hl
    | true =>
      rw [List.countP_cons_of_pos hp, List.countP_eq_zero.mpr fun b hb => by simp [ha b hb hp]]

/-- An element of a front part stands at the same place. -/
theorem IsPrefix.getElem?_eq_some {l l' : List α} (h : l <+: l') {i : Nat} {a : α}
    (hi : l[i]? = some a) : l'[i]? = some a := by
  obtain ⟨r, rfl⟩ := h
  rw [getElem?_append_left (getElem?_eq_some_iff.mp hi).1]
  exact hi

/-- Where the keys count up from `base`, those from `start` on are the ones behind a position. -/
theorem filter_le_of_consecutive {f : α → Nat} {base : Nat} {l : List α}
    (h : ∀ i a, l[i]? = some a → f a = base + i) (start : Nat) :
    (l.filter fun a => start ≤ f a) = l.drop (start - base) := by
  induction l generalizing base with
  | nil => simp
  | cons a l ih =>
    have ha : f a = base := h 0 a rfl
    have ih := @ih (base + 1) fun i b hb => by have := h (i + 1) b hb; omega
    by_cases hs : start ≤ base
    · rw [filter_cons_of_pos (by simp [ha, hs]), ih, Nat.sub_eq_zero_of_le hs,
        Nat.sub_eq_zero_of_le (by omega), drop_zero, drop_zero]
    · rw [filter_cons_of_neg (by simp [ha, hs]), ih,
        show start - base = (start - (base + 1)) + 1 by omega, drop_succ_cons]

/-- Where the keys count up from `base`, those below `stop` are the ones before a position. -/
theorem filter_lt_of_consecutive {f : α → Nat} {base : Nat} {l : List α}
    (h : ∀ i a, l[i]? = some a → f a = base + i) (stop : Nat) :
    (l.filter fun a => f a < stop) = l.take (stop - base) := by
  induction l generalizing base with
  | nil => simp
  | cons a l ih =>
    have ha : f a = base := h 0 a rfl
    have ih := @ih (base + 1) fun i b hb => by have := h (i + 1) b hb; omega
    by_cases hs : base < stop
    · rw [filter_cons_of_pos (by simp [ha, hs]), ih,
        show stop - base = (stop - (base + 1)) + 1 by omega, take_succ_cons]
    · rw [filter_cons_of_neg (by simp [ha, hs]), ih, Nat.sub_eq_zero_of_le (Nat.not_lt.mp hs),
        Nat.sub_eq_zero_of_le (by omega), take_zero, take_zero]

/-- A list of nonempty lists is no longer than what it flattens to. -/
theorem length_le_length_flatten {l : List (List α)} (h : ∀ a ∈ l, a ≠ []) :
    l.length ≤ l.flatten.length := by
  induction l with
  | nil => simp
  | cons a l ih =>
    have hpos := length_pos_of_ne_nil (h a mem_cons_self)
    have hrest := ih fun b hb => h b (mem_cons_of_mem _ hb)
    simp only [length_cons, flatten_cons, length_append]
    omega

/-- How many elements two lists share from their heads on. -/
def commonFront [DecidableEq α] : List α → List α → Nat
  | a :: as, b :: bs => if a = b then commonFront as bs + 1 else 0
  | _, _ => 0

theorem le_commonFront_iff [DecidableEq α] {as bs : List α} {n : Nat} :
    n ≤ as.commonFront bs ↔ n ≤ as.length ∧ n ≤ bs.length ∧ as.take n = bs.take n := by
  induction n generalizing as bs with
  | zero => simp
  | succ n ih =>
    match as, bs with
    | [], _ => simp [commonFront]
    | _ :: _, [] => simp [commonFront]
    | a :: as, b :: bs =>
      by_cases hab : a = b
      · subst hab
        simp [commonFront, ih]
      · simp [commonFront, hab]

/-- The last element that satisfies a predicate, if there is one. -/
theorem forall_or_exists_last (p : α → Prop) (l : List α) :
    (∀ a ∈ l, ¬p a) ∨ ∃ front a back, l = front ++ a :: back ∧ p a ∧ ∀ b ∈ back, ¬p b := by
  induction l with
  | nil => exact .inl nofun
  | cons a l ih =>
    rcases ih with hnone | ⟨front, b, back, rfl, hb, hback⟩
    · by_cases ha : p a
      · exact .inr ⟨[], a, l, rfl, ha, hnone⟩
      · exact .inl (by simpa [ha] using hnone)
    · exact .inr ⟨a :: front, b, back, rfl, hb, hback⟩

/-- An increasing list of numbers from `start` on grows by at least one at each place. -/
theorem add_le_getElem {l : List Nat} {start : Nat} (hsorted : l.Pairwise (· < ·))
    (hstart : ∀ n ∈ l, start ≤ n) (i : Nat) (hi : i < l.length) : start + i ≤ l[i] := by
  induction l generalizing start i with
  | nil => simp at hi
  | cons n l ih =>
    obtain ⟨hlt, hsorted⟩ := pairwise_cons.mp hsorted
    have hn := hstart n mem_cons_self
    cases i with
    | zero => exact hn
    | succ i =>
      have := ih hsorted (fun m hm => Nat.lt_of_le_of_lt hn (hlt m hm)) i (by simpa using hi)
      simp only [getElem_cons_succ]
      omega

end List
