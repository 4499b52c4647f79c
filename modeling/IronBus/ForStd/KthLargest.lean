import Mathlib

/-!
# The k-th largest element of a list

Reading a position of a list sorted in descending order. What the element there says is a count:
a number lies below the `k`-th largest exactly when at least `k` elements lie above it.
-/

namespace List

variable {k x c : Nat} {l : List Nat}

/-- The `k`-th largest element, counting from one. -/
def kthLargest (k : Nat) (l : List Nat) : Option Nat :=
  (l.insertionSort (· ≥ ·))[k - 1]?

/-- In a descending list the elements above `x` come first. -/
theorem lt_getElem_iff_of_descending {s : List Nat} (hs : s.Pairwise fun a b => b ≤ a) {i : Nat}
    (hi : i < s.length) : x < s[i] ↔ i < s.countP (x < ·) := by
  induction s generalizing i with
  | nil => exact absurd hi (Nat.not_lt_zero _)
  | cons a s ih =>
    obtain ⟨ha, hs⟩ := pairwise_cons.mp hs
    by_cases hx : x < a
    · rw [countP_cons_of_pos (by simpa using hx)]
      cases i with
      | zero => simp [hx]
      | succ i => simpa using ih hs (by simpa using hi)
    · -- nothing after an element that is not above `x` is above it
      have hzero : s.countP (x < ·) = 0 :=
        countP_eq_zero.mpr fun b hb => by simpa using (ha b hb).trans (Nat.not_lt.mp hx)
      rw [countP_cons_of_neg (by simpa using hx), hzero]
      cases i with
      | zero => simpa using hx
      | succ i =>
        have hmem : s.get ⟨i, by simpa using hi⟩ ∈ s := get_mem _ _
        simpa using (ha _ hmem).trans (Nat.not_lt.mp hx)

/-- There is a `k`-th largest element when there are `k` elements. -/
theorem kthLargest_eq_none_iff (hk : 0 < k) : l.kthLargest k = none ↔ l.length < k := by
  rw [kthLargest, getElem?_eq_none_iff, length_insertionSort]
  omega

/-- A number lies below the `k`-th largest when at least `k` elements lie above it. -/
theorem lt_kthLargest_iff (hk : 0 < k) (h : l.kthLargest k = some c) :
    x < c ↔ k ≤ l.countP (x < ·) := by
  obtain ⟨hlt, rfl⟩ := getElem?_eq_some_iff.mp h
  rw [lt_getElem_iff_of_descending (pairwise_insertionSort _ l) hlt,
    (perm_insertionSort _ l).countP_eq]
  omega

end List
