import IronBus.ForStd.List
import IronBus.Native.Cursor

/-!
# The cursor is a set of acknowledged offsets

The watermark and the ranges ahead of it stand for a set of offsets.

Key results:
- `Wf.isLeast`: the watermark is the least offset missing from the set
- `acked_ackBounded`, `commitUpTo_spec`: a call adds one offset, or all below its bound
- `run_refines_acked_set`: so does every sequence of calls
-/

namespace IronBus

open List

/-! ## Sorted ranges -/

/-- Non-empty ranges in ascending order, with a gap below each of them and above `lo`. -/
def Runs : Nat → List (Nat × Nat) → Prop
  | _, [] => True
  | lo, r :: rest => lo < r.1 ∧ r.1 < r.2 ∧ Runs r.2 rest

/-- An offset lies in one of the ranges. -/
def Covers (l : List (Nat × Nat)) (o : Nat) : Prop := ∃ r ∈ l, r.1 ≤ o ∧ o < r.2

/-- Where a list of ranges ends; an empty one ends at `lo`. -/
def reach : Nat → List (Nat × Nat) → Nat
  | lo, [] => lo
  | _, r :: rest => reach r.2 rest

variable {lo : Nat} {l : List (Nat × Nat)}

@[simp] theorem covers_nil (o : Nat) : ¬ Covers [] o := fun ⟨_, hr, _⟩ => nomatch hr

@[simp] theorem covers_cons (r : Nat × Nat) (l : List (Nat × Nat)) (o : Nat) :
    Covers (r :: l) o ↔ (r.1 ≤ o ∧ o < r.2) ∨ Covers l o := by
  simp [Covers]

@[simp] theorem covers_append (l l' : List (Nat × Nat)) (o : Nat) :
    Covers (l ++ l') o ↔ Covers l o ∨ Covers l' o := by
  simp only [Covers, mem_append]
  constructor
  · rintro ⟨r, hr | hr, h⟩
    · exact .inl ⟨r, hr, h⟩
    · exact .inr ⟨r, hr, h⟩
  · rintro (⟨r, hr, h⟩ | ⟨r, hr, h⟩)
    · exact ⟨r, .inl hr, h⟩
    · exact ⟨r, .inr hr, h⟩

@[simp] theorem reach_append_singleton (lo : Nat) (l : List (Nat × Nat)) (r : Nat × Nat) :
    reach lo (l ++ [r]) = r.2 := by
  induction l generalizing lo with
  | nil => rfl
  | cons a l ih => exact ih a.2

theorem runs_append {l' : List (Nat × Nat)} :
    Runs lo (l ++ l') ↔ Runs lo l ∧ Runs (reach lo l) l' := by
  induction l generalizing lo with
  | nil => simp [Runs, reach]
  | cons r l ih => simp [Runs, reach, ih, and_assoc]

theorem Runs.mono {lo' : Nat} (h : Runs lo l) (hle : lo' ≤ lo) :
    Runs lo' l := by
  cases l with
  | nil => trivial
  | cons r l => exact ⟨Nat.lt_of_le_of_lt hle h.1, h.2⟩

theorem Runs.lt_of_mem (h : Runs lo l) {r : Nat × Nat} (hr : r ∈ l) : lo < r.1 ∧ r.1 < r.2 := by
  induction l generalizing lo with
  | nil => cases hr
  | cons a l ih =>
    obtain ⟨hlo, hlt, hrest⟩ := h
    cases hr with
    | head => exact ⟨hlo, hlt⟩
    | tail _ hr => exact ih (hrest.mono (by omega)) hr

theorem Runs.pairwise (h : Runs lo l) :
    l.Pairwise fun a b => a.2 < b.1 := by
  induction l generalizing lo with
  | nil => exact .nil
  | cons a l ih => exact .cons (fun b hb => (h.2.2.lt_of_mem hb).1) (ih h.2.2)

/-- Nothing at or below the lower bound is covered. -/
theorem Runs.not_covers {o : Nat} (h : Runs lo l) (ho : o ≤ lo) :
    ¬ Covers l o := by
  rintro ⟨r, hr, hle, -⟩
  have := (h.lt_of_mem hr).1
  omega

/-- Each range takes a gap and at least one offset. -/
theorem Runs.length_le {m : Nat} (h : Runs lo l) (hlo : lo ≤ m) (hm : ∀ r ∈ l, r.2 ≤ m) :
    lo + 2 * l.length ≤ m := by
  induction l generalizing lo with
  | nil => simpa using hlo
  | cons r l ih =>
    obtain ⟨hlt, hlt', hrest⟩ := h
    have := ih hrest (hm r mem_cons_self) fun a ha => hm a (mem_cons_of_mem r ha)
    rw [length_cons]
    omega

/-- An uncovered offset splits the ranges into those below it and those above it. -/
theorem Runs.split {o : Nat} (h : Runs lo l) (ho : ¬ Covers l o) :
    ∃ below above, l = below ++ above ∧ (∀ r ∈ below, r.2 ≤ o) ∧ ∀ r ∈ above, o < r.1 := by
  induction l generalizing lo with
  | nil => exact ⟨[], [], rfl, by simp, by simp⟩
  | cons r l ih =>
    rw [covers_cons, not_or] at ho
    obtain ⟨-, hlt, hrest⟩ := h
    by_cases hle : r.2 ≤ o
    · obtain ⟨below, above, rfl, hb, ha⟩ := ih hrest ho.2
      refine ⟨r :: below, above, rfl, fun a ha' => ?_, ha⟩
      rcases mem_cons.mp ha' with rfl | ha'
      · exact hle
      · exact hb a ha'
    · have hlt' : o < r.1 := by omega
      refine ⟨[], r :: l, rfl, by simp, fun a ha => ?_⟩
      rcases mem_cons.mp ha with rfl | ha
      · exact hlt'
      · have := (hrest.lt_of_mem ha).1
        omega

namespace AckCursor

/-! ## Well-formed cursors -/

/-- The shape every cursor keeps, and the width of its numbers. -/
structure Wf (c : AckCursor) : Prop where
  runs : Runs c.committed c.ahead
  committed_le : c.committed ≤ u64Max
  ahead_le : ∀ r ∈ c.ahead, r.2 ≤ u64Max

/-- The offsets a cursor stands for. -/
def acked (c : AckCursor) : Set Nat := { o | c.isAcked o = true }

variable {lo o committed : Nat} {l below above : List (Nat × Nat)} {c : AckCursor}

theorem inOrder (h : Runs lo l) (o : Nat) :
    l.InOrder (compareRange o) := by
  induction l generalizing lo with
  | nil => exact .nil
  | cons a l ih =>
    refine .cons (fun b hb => ?_) (ih h.2.2)
    have hb' := h.2.2.lt_of_mem hb
    have ha := h.2.1
    constructor
    · intro hgt
      have hlt : o < a.1 := by
        unfold compareRange at hgt
        split at hgt
        · cases hgt
        · split at hgt
          · assumption
          · cases hgt
      rw [compareRange, if_neg (by omega), if_pos (by omega)]
    · intro hlt
      have hle : b.2 ≤ o := by
        unfold compareRange at hlt
        split at hlt
        · assumption
        · split at hlt <;> cases hlt
      rw [compareRange, if_pos (by omega)]

theorem compareRange_eq_iff (o : Nat) (r : Nat × Nat) :
    compareRange o r = .eq ↔ r.1 ≤ o ∧ o < r.2 := by
  unfold compareRange
  split
  · simp only [reduceCtorEq, false_iff]
    omega
  · split
    · simp only [reduceCtorEq, false_iff]
      omega
    · simp only [true_iff]
      omega

theorem containsAhead_iff (h : Runs c.committed c.ahead) (o : Nat) :
    c.containsAhead o = true ↔ Covers c.ahead o := by
  rw [containsAhead, binarySearchBy_isOk_iff (inOrder h o)]
  simp only [Covers, compareRange_eq_iff]

theorem Wf.isAcked_iff (h : c.Wf) (o : Nat) :
    c.isAcked o = true ↔ o < c.committed ∨ Covers c.ahead o := by
  rw [isAcked, Bool.or_eq_true, decide_eq_true_iff, containsAhead_iff h.runs]

/-- The watermark is the least offset that is not acknowledged. -/
theorem Wf.isLeast (h : c.Wf) : IsLeast { o | c.isAcked o = false } c.committed := by
  constructor
  · show c.isAcked c.committed = false
    rw [Bool.eq_false_iff, ne_eq, h.isAcked_iff, not_or]
    exact ⟨lt_irrefl _, h.runs.not_covers le_rfl⟩
  · intro o ho
    refine not_lt.mp fun hlt => ?_
    have := (h.isAcked_iff o).mpr (.inl hlt)
    rw [show c.isAcked o = false from ho] at this
    cases this

/-- The exhausted last offset is never acknowledged. -/
theorem Wf.lt_of_isAcked (h : c.Wf) (ho : c.isAcked o = true) :
    o < u64Max := by
  rcases (h.isAcked_iff o).mp ho with hlt | ⟨r, hr, -, hlt⟩
  · exact lt_of_lt_of_le hlt h.committed_le
  · exact lt_of_lt_of_le hlt (h.ahead_le r hr)

/-! ## Acknowledging one offset -/

/-- The ranges below an offset `o`, closed off by the start of the range `o` goes into. That range
touches the lower bound only as the first one. -/
structure Left (lo : Nat) (l : List (Nat × Nat)) (o : Nat) (below : List (Nat × Nat))
    (start : Nat) : Prop where
  runs : Runs lo below
  gap : reach lo below < start ∨ (below = [] ∧ start = lo)
  le : start ≤ o
  covers : ∀ x, Covers l x ↔ Covers below x ∨ (start ≤ x ∧ x < o)

/-- The ranges above an offset `o`, from the end of the range `o` goes into. -/
structure Right (l : List (Nat × Nat)) (o stop : Nat) (above : List (Nat × Nat)) : Prop where
  runs : Runs stop above
  lt : o < stop
  covers : ∀ x, Covers l x ↔ (o < x ∧ x < stop) ∨ Covers above x

/-- Below the offset: the last range ends at it and takes it in, or all ranges stay. -/
theorem left_cases (hruns : Runs lo below) (hlo : lo ≤ o) (hle : ∀ r ∈ below, r.2 ≤ o) :
    (below.getLast?.any (fun r => r.2 == o) = false ∧ Left lo below o below o)
      ∨ ∃ below' start, below = below' ++ [(start, o)] ∧ Left lo below o below' start := by
  rcases eq_nil_or_concat below with rfl | ⟨below', r, rfl⟩
  · refine .inl ⟨rfl, hruns, ?_, Nat.le_refl o, fun x => ?_⟩
    · rcases Nat.lt_or_eq_of_le hlo with h | h
      · exact .inl h
      · exact .inr ⟨rfl, h.symm⟩
    · simp only [covers_nil, false_or, false_iff]
      omega
  · rw [concat_eq_append] at hruns hle ⊢
    have hr := hle r (by simp)
    obtain ⟨hruns', hlt, hlt', -⟩ := runs_append.mp hruns
    rcases Nat.lt_or_eq_of_le hr with h | h
    · refine .inl ⟨?_, hruns, .inl (by simpa using h), Nat.le_refl o, fun x => ?_⟩
      · simp only [getLast?_concat, Option.any_some, beq_eq_false_iff_ne]
        omega
      · simp only [iff_self_or]
        omega
    · refine .inr ⟨below', r.1, by rw [← h], hruns', .inl hlt, by omega, fun x => ?_⟩
      simp [h]

/-- Above the offset: the first range starts right behind it and takes it in, or all ranges
stay. -/
theorem right_cases {m : Nat} (hruns : Runs m above) (hlt : ∀ r ∈ above, o < r.1) :
    (above.head?.any (fun r => r.1 == o + 1) = false ∧ Right above o (o + 1) above)
      ∨ ∃ stop above', above = (o + 1, stop) :: above' ∧ Right above o stop above' := by
  cases above with
  | nil =>
    refine .inl ⟨rfl, trivial, by omega, fun x => ?_⟩
    simp only [covers_nil, or_false, false_iff]
    omega
  | cons r above =>
    have hr := hlt r mem_cons_self
    obtain ⟨-, hlt', hrest⟩ := hruns
    by_cases h : r.1 = o + 1
    · refine .inr ⟨r.2, above, by rw [← h], hrest, by omega, fun x => ?_⟩
      rw [covers_cons, h]
      simp only [Nat.succ_le_iff]
    · refine .inl ⟨by simpa using h, ⟨by omega, hlt', hrest⟩, by omega, fun x => ?_⟩
      simp only [iff_or_self]
      omega

/-- Where the ranges split at an offset. -/
theorem slot_append (committed : Nat) (hruns : Runs lo (below ++ above))
    (hle : ∀ r ∈ below, r.2 ≤ o) (hlt : ∀ r ∈ above, o < r.1) :
    slot ⟨committed, below ++ above⟩ o = below.length := by
  refine partitionPoint_append (fun r hr => ?_) fun r hr => ?_
  · have := hle r hr
    have := (hruns.lt_of_mem (mem_append_left above hr)).2
    exact decide_eq_true (by omega)
  · exact decide_eq_false (by have := hlt r hr; omega)

theorem mergesLeft_append (hslot : slot ⟨committed, below ++ above⟩ o = below.length) :
    mergesLeft ⟨committed, below ++ above⟩ o = below.getLast?.any fun r => r.2 == o := by
  rw [mergesLeft, hslot]
  rcases eq_nil_or_concat below with rfl | ⟨below', r, rfl⟩
  · rfl
  · simp [concat_eq_append]

theorem mergesRight_append {next : Nat}
    (hslot : slot ⟨committed, below ++ above⟩ o = below.length) :
    mergesRight ⟨committed, below ++ above⟩ o next = above.head?.any fun r => r.1 == next := by
  rw [mergesRight, hslot, getElem?_append_length]

/-- Putting in an uncovered offset places one range between those below and those above it. -/
theorem insert_cases (hruns : Runs committed l) (hlo : committed ≤ o) (ho : ¬ Covers l o) :
    ∃ lower upper below start stop above, l = lower ++ upper
      ∧ insert ⟨committed, l⟩ o (o + 1) = ⟨committed, below ++ (start, stop) :: above⟩
      ∧ Left committed lower o below start ∧ Right upper o stop above := by
  obtain ⟨lower, upper, rfl, hle, hlt⟩ := hruns.split ho
  have hslot := slot_append committed hruns hle hlt
  obtain ⟨hb, ha⟩ := runs_append.mp hruns
  unfold insert
  simp only [mergesLeft_append hslot, mergesRight_append hslot, hslot]
  -- each side either merges with its neighbour or keeps all its ranges
  rcases left_cases hb hlo hle with ⟨hl, hL⟩ | ⟨below, start, rfl, hL⟩ <;>
    rcases right_cases ha hlt with ⟨hr, hR⟩ | ⟨stop, above, rfl, hR⟩
  · exact ⟨lower, upper, lower, o, o + 1, upper, rfl, by simp [hl, hr], hL, hR⟩
  · exact ⟨lower, _, lower, o, stop, above, rfl, by simp [hl], hL, hR⟩
  · exact ⟨_, upper, below, start, o + 1, upper, rfl, by simp [hr], hL, hR⟩
  · have herase := eraseIdx_append_length (below ++ [(start, stop)]) above (o + 1, stop)
    exact ⟨_, _, below, start, stop, above, rfl, by simpa using herase, hL, hR⟩

/-- A cursor of the right shape whose offsets all fit. -/
theorem Wf.of_acked_lt (h : Runs c.committed c.ahead)
    (hlt : ∀ x, x < c.committed ∨ Covers c.ahead x → x < u64Max) : c.Wf := by
  refine ⟨h, ?_, fun r hr => ?_⟩
  · rcases Nat.eq_zero_or_pos c.committed with h0 | hpos
    · omega
    · have := hlt (c.committed - 1) (.inl (by omega))
      omega
  · have hr' := h.lt_of_mem hr
    have := hlt (r.2 - 1) (.inr ⟨r, hr, by omega, by omega⟩)
    omega

/-- The watermark takes in a range that was placed at it. -/
theorem advance_placed {start stop : Nat} {lower upper : List (Nat × Nat)}
    (hL : Left committed lower o below start) (hR : Right upper o stop above) :
    ∃ c', advance ⟨committed, below ++ (start, stop) :: above⟩ = c'
      ∧ Runs c'.committed c'.ahead
      ∧ ∀ x, (x < c'.committed ∨ Covers c'.ahead x)
        ↔ (x < committed ∨ Covers (lower ++ upper) x) ∨ x = o := by
  have hle := hL.le
  have hlt := hR.lt
  rcases hL.gap with hgap | ⟨rfl, rfl⟩
  · -- a gap is left below the range, so the lowest range starts above the watermark
    have hruns : Runs committed (below ++ (start, stop) :: above) :=
      runs_append.mpr ⟨hL.runs, hgap, by omega, hR.runs⟩
    refine ⟨⟨committed, below ++ (start, stop) :: above⟩, ?_, hruns, fun x => ?_⟩
    · cases hcons : below ++ (start, stop) :: above with
      | nil => rfl
      | cons r rest =>
        rw [hcons] at hruns
        exact if_neg (Nat.ne_of_gt hruns.1)
    · have hl := hL.covers x
      have hr := hR.covers x
      simp only [covers_append, covers_cons]
      grind
  · refine ⟨⟨stop, above⟩, if_pos rfl, hR.runs, fun x => ?_⟩
    have hl := hL.covers x
    have hr := hR.covers x
    simp only [covers_append, covers_nil] at hl ⊢
    grind

/-- What a bounded acknowledgement does. -/
theorem ackBounded_cases (h : c.Wf) (o maxRuns : Nat) :
    (c.ackBounded o maxRuns = (.duplicate, c) ∧ (o ∈ c.acked ∨ u64Max ≤ o))
      ∨ (c.ackBounded o maxRuns = (.shed, c) ∧ maxRuns ≤ c.ahead.length)
      ∨ ∃ c', c.ackBounded o maxRuns = (.recorded, c') ∧ o < u64Max ∧ c'.Wf
        ∧ c'.acked = c.acked ∪ {o} := by
  unfold ackBounded
  cases ho : c.isAcked o with
  | true => exact .inl ⟨if_pos rfl, .inl ho⟩
  | false =>
    simp only [Bool.false_eq_true, if_false, checkedAdd]
    by_cases hmax : o + 1 ≤ u64Max
    swap
    · simp only [hmax, if_false]
      exact .inl ⟨trivial, .inr (by omega)⟩
    simp only [hmax, if_true]
    split_ifs with hshed
    · exact .inr (.inl ⟨rfl, hshed.1⟩)
    · have hnot : ¬ (o < c.committed ∨ Covers c.ahead o) := by
        rw [← h.isAcked_iff, ho]
        exact Bool.false_ne_true
      rw [not_or] at hnot
      obtain ⟨lower, upper, below, start, stop, above, hsplit, hins, hL, hR⟩ :=
        insert_cases h.runs (not_lt.mp hnot.1) hnot.2
      obtain ⟨c', hadv, hruns, hcov⟩ := advance_placed hL hR
      rw [← hsplit] at hcov
      have hwf : c'.Wf := by
        refine .of_acked_lt hruns fun x hx => ?_
        rcases (hcov x).mp hx with hx | rfl
        · exact h.lt_of_isAcked ((h.isAcked_iff x).mpr hx)
        · omega
      refine .inr (.inr ⟨c', by rw [hins, hadv], by omega, hwf, Set.ext fun x => ?_⟩)
      show c'.isAcked x = true ↔ c.isAcked x = true ∨ x = o
      rw [hwf.isAcked_iff, h.isAcked_iff, hcov]

/-- An acknowledgement without a cap is never shed: the ranges leave too little room for that
many. -/
theorem ackBounded_usizeMax_ne_shed (h : c.Wf) (o : Nat) :
    (c.ackBounded o usizeMax).1 ≠ .shed := by
  rcases ackBounded_cases h o usizeMax with ⟨heq, -⟩ | ⟨heq, hlen⟩ | ⟨c', heq, -⟩
  · rw [heq]
    exact fun h => nomatch h
  · have := h.runs.length_le h.committed_le h.ahead_le
    have : 0 < u64Max := by decide
    rw [usizeMax] at hlen
    omega
  · rw [heq]
    exact fun h => nomatch h

/-! ## Committing up to an offset -/

/-- Ranges above the bound are not clipped. -/
theorem clip_of_le {u : Nat} (h : Runs lo l) (hu : u ≤ lo) :
    clip u l = l := by
  induction l generalizing lo with
  | nil => rfl
  | cons r l ih =>
    obtain ⟨hlo, hlt, hrest⟩ := h
    have hl : clip u l = l := ih hrest (by omega)
    rw [clip, filterMap_cons, if_neg (by omega)]
    show (max r.1 u, r.2) :: clip u l = r :: l
    rw [hl, max_eq_left (by omega)]

/-- With a gap below the ranges the watermark stays. -/
theorem advanceAll_of_runs (h : Runs lo l) :
    advanceAll lo l = ⟨lo, l⟩ := by
  cases l with
  | nil => rfl
  | cons r l => exact if_neg (Nat.ne_of_gt h.1)

/-- Clipping at the new watermark and moving it on adds exactly the offsets below it. -/
theorem advanceAll_clip {u : Nat} (h : Runs lo l) :
    ∃ c', advanceAll u (clip u l) = c' ∧ Runs c'.committed c'.ahead
      ∧ ∀ x, (x < c'.committed ∨ Covers c'.ahead x) ↔ x < u ∨ Covers l x := by
  induction l generalizing lo with
  | nil => exact ⟨⟨u, []⟩, rfl, trivial, fun x => by simp⟩
  | cons r l ih =>
    obtain ⟨hlo, hlt, hrest⟩ := h
    by_cases hle : r.2 ≤ u
    · -- the range is dropped: all of it lies below the bound
      obtain ⟨c', heq, hruns, hcov⟩ := ih hrest
      refine ⟨c', ?_, hruns, fun x => ?_⟩
      · rw [clip, filterMap_cons, if_pos hle]
        exact heq
      · rw [hcov, covers_cons]
        grind
    · have hclip : clip u (r :: l) = (max r.1 u, r.2) :: l := by
        rw [clip, filterMap_cons, if_neg hle]
        show (max r.1 u, r.2) :: clip u l = _
        rw [clip_of_le hrest (by omega)]
      rw [hclip, advanceAll]
      by_cases hu : r.1 ≤ u
      · rw [max_eq_right hu, if_pos rfl, advanceAll_of_runs hrest]
        refine ⟨_, rfl, hrest, fun x => ?_⟩
        rw [covers_cons]
        grind
      · rw [max_eq_left (by omega), if_neg (by omega)]
        exact ⟨_, rfl, ⟨not_le.mp hu, hlt, hrest⟩, fun x => Iff.rfl⟩

/-- A cumulative commit adds the offsets below its bound. -/
theorem commitUpTo_spec (h : c.Wf) {u : Nat} (hu : u ≤ u64Max) :
    (c.commitUpTo u).2.Wf ∧ (c.commitUpTo u).2.acked = c.acked ∪ Set.Iio u := by
  unfold commitUpTo
  split_ifs with hle
  · refine ⟨h, (Set.union_eq_left.mpr fun x hx => ?_).symm⟩
    exact (h.isAcked_iff x).mpr (.inl (lt_of_lt_of_le hx hle))
  · obtain ⟨c', heq, hruns, hcov⟩ := advanceAll_clip (u := u) h.runs
    have hacked : ∀ x, (x < c'.committed ∨ Covers c'.ahead x) ↔ c.isAcked x = true ∨ x < u := by
      intro x
      rw [hcov, h.isAcked_iff]
      grind
    have hwf : c'.Wf := by
      refine .of_acked_lt hruns fun x hx => ?_
      rcases (hacked x).mp hx with hx | hx
      · exact h.lt_of_isAcked hx
      · omega
    rw [heq]
    refine ⟨hwf, Set.ext fun x => ?_⟩
    show c'.isAcked x = true ↔ c.isAcked x = true ∨ x < u
    rw [hwf.isAcked_iff, hacked]

/-! ## Runs of calls -/

/-- How a cursor is obtained. -/
inductive Start where
  | new
  | resume (committed : UInt64)
  | resumeWithAhead (committed : UInt64) (ahead : List (UInt64 × UInt64))

def Start.cursor : Start → Except AckCursorError AckCursor
  | .new => .ok AckCursor.new
  | .resume committed => .ok (AckCursor.resume committed.toNat)
  | .resumeWithAhead committed ahead =>
    AckCursor.resumeWithAhead committed.toNat (ahead.map fun r => (r.1.toNat, r.2.toNat))

/-- A call that changes a cursor. -/
inductive Call where
  | ack (offset : UInt64)
  | ackBounded (offset : UInt64) (maxRuns : Nat)
  | commitUpTo (upTo : UInt64)

def Call.apply (c : AckCursor) : Call → AckCursor
  | .ack offset => (c.ack offset.toNat).2
  | .ackBounded offset maxRuns => (c.ackBounded offset.toNat maxRuns).2
  | .commitUpTo upTo => (c.commitUpTo upTo.toNat).2

def run (c : AckCursor) (calls : List Call) : AckCursor := calls.foldl Call.apply c

/-- Each call of a run with the cursor it is made on. -/
def history : AckCursor → List Call → List (AckCursor × Call)
  | _, [] => []
  | c, call :: calls => (c, call) :: history (call.apply c) calls

/-- The call acknowledges `o` and is not shed. The last offset is exhausted: its acknowledgement
is a no-op. -/
def Call.Acks (c : AckCursor) (o : Nat) : Call → Prop
  | .ack offset => offset.toNat = o ∧ o ≠ u64Max
  | .ackBounded offset maxRuns =>
    offset.toNat = o ∧ o ≠ u64Max ∧ (c.ackBounded offset.toNat maxRuns).1 ≠ .shed
  | .commitUpTo _ => False

/-- The call commits `o` cumulatively. -/
def Call.Commits (o : Nat) : Call → Prop
  | .commitUpTo upTo => o < upTo.toNat
  | _ => False

theorem runs_of_checkAhead (h : checkAhead lo l = .ok ()) :
    Runs lo l := by
  induction l generalizing lo with
  | nil => trivial
  | cons r l ih =>
    unfold checkAhead at h
    split at h
    · cases h
    · split at h
      · cases h
      · exact ⟨by omega, by omega, ih h⟩

/-- Every way to obtain a cursor yields a well-formed one. -/
theorem Start.wf {start : Start} (h : start.cursor = .ok c) : c.Wf := by
  cases start with
  | new =>
    obtain rfl := Except.ok.inj h
    exact ⟨trivial, Nat.zero_le _, fun r hr => nomatch hr⟩
  | resume committed =>
    obtain rfl := Except.ok.inj h
    exact ⟨trivial, toNat_le_u64Max committed, fun r hr => nomatch hr⟩
  | resumeWithAhead committed ahead =>
    simp only [Start.cursor, AckCursor.resumeWithAhead] at h
    split at h
    · cases h
    · rename_i hok
      obtain rfl := Except.ok.inj h
      refine ⟨runs_of_checkAhead hok, toNat_le_u64Max committed, fun r hr => ?_⟩
      obtain ⟨r', -, rfl⟩ := mem_map.mp hr
      exact toNat_le_u64Max r'.2

/-- One acknowledgement adds its offset, unless it is shed or the offset is the last one. -/
theorem acked_ackBounded (h : c.Wf) (offset : UInt64) (maxRuns : Nat) :
    (c.ackBounded offset.toNat maxRuns).2.Wf
      ∧ ∀ o, o ∈ (c.ackBounded offset.toNat maxRuns).2.acked
        ↔ o ∈ c.acked ∨ (offset.toNat = o ∧ o ≠ u64Max
          ∧ (c.ackBounded offset.toNat maxRuns).1 ≠ .shed) := by
  have hle := toNat_le_u64Max offset
  rcases ackBounded_cases h offset.toNat maxRuns with ⟨heq, hdup⟩ | ⟨heq, -⟩ |
      ⟨c', heq, hlt, hwf, hset⟩
  · rw [heq]
    refine ⟨h, fun o => ⟨.inl, ?_⟩⟩
    rintro (ho | ⟨rfl, hne, -⟩)
    · exact ho
    · rcases hdup with hdup | hge
      · exact hdup
      · omega
  · rw [heq]
    exact ⟨h, fun o => ⟨.inl, fun ho => ho.elim id fun hs => absurd rfl hs.2.2⟩⟩
  · rw [heq]
    refine ⟨hwf, fun o => ?_⟩
    rw [hset, Set.mem_union, Set.mem_singleton_iff]
    refine or_congr_right ⟨fun ho => ⟨ho.symm, by omega, fun h => nomatch h⟩, fun ho => ho.1.symm⟩

/-- What one call adds to the set. -/
theorem Call.acked_apply (h : c.Wf) (call : Call) :
    (call.apply c).Wf ∧ ∀ o, o ∈ (call.apply c).acked ↔
      o ∈ c.acked ∨ call.Acks c o ∨ call.Commits o := by
  cases call with
  | ack offset =>
    obtain ⟨hwf, hset⟩ := acked_ackBounded h offset usizeMax
    refine ⟨hwf, fun o => ?_⟩
    have hnot := ackBounded_usizeMax_ne_shed h offset.toNat
    simpa [Call.Acks, Call.Commits, Call.apply, AckCursor.ack, hnot] using hset o
  | ackBounded offset maxRuns =>
    obtain ⟨hwf, hset⟩ := acked_ackBounded h offset maxRuns
    exact ⟨hwf, fun o => by simpa [Call.Acks, Call.Commits, Call.apply] using hset o⟩
  | commitUpTo upTo =>
    obtain ⟨hwf, hset⟩ := commitUpTo_spec h (toNat_le_u64Max upTo)
    refine ⟨hwf, fun o => ?_⟩
    show o ∈ (c.commitUpTo upTo.toNat).2.acked ↔ _
    rw [hset]
    simp [Call.Acks, Call.Commits]

/-- A well-formed cursor stays so over a run, and the set is what the calls have added. -/
theorem run_acked_iff (h : c.Wf) (calls : List Call) :
    (c.run calls).Wf ∧ ∀ o, o ∈ (c.run calls).acked ↔ o ∈ c.acked
      ∨ (∃ e ∈ c.history calls, e.2.Acks e.1 o) ∨ ∃ call ∈ calls, call.Commits o := by
  induction calls generalizing c with
  | nil => exact ⟨h, fun o => by simp [run, history]⟩
  | cons call calls ih =>
    obtain ⟨hwf, hset⟩ := Call.acked_apply h call
    obtain ⟨hwf', hset'⟩ := ih hwf
    refine ⟨hwf', fun o => ?_⟩
    rw [show c.run (call :: calls) = (call.apply c).run calls from rfl, hset', hset]
    simp only [history, mem_cons, exists_eq_or_imp]
    grind

/-- The watermark only moves up: the set only grows. -/
theorem committed_le_of_acked_subset {c' : AckCursor} (h : c.Wf) (h' : c'.Wf)
    (hsub : c.acked ⊆ c'.acked) : c.committed ≤ c'.committed := by
  refine h.isLeast.2 ?_
  show c.isAcked c'.committed = false
  rw [Bool.eq_false_iff]
  intro hacked
  have hmem : c'.isAcked c'.committed = true := hsub hacked
  rw [show c'.isAcked c'.committed = false from h'.isLeast.1] at hmem
  cases hmem

/-- Any sequence of calls on any cursor: the acknowledged offsets are those the cursor started
with and those the calls have acknowledged or committed, the watermark is the least other one and
never moves back, and the ranges ahead of it keep their shape. -/
theorem run_refines_acked_set (start : Start) (c : AckCursor) (h : start.cursor = .ok c)
    (calls : List Call) :
    (∀ o, (c.run calls).isAcked o = true ↔ o < c.committed
        ∨ (∃ r ∈ c.ahead, r.1 ≤ o ∧ o < r.2)
        ∨ (∃ e ∈ c.history calls, e.2.Acks e.1 o)
        ∨ ∃ upTo, Call.commitUpTo upTo ∈ calls ∧ o < upTo.toNat)
      ∧ IsLeast { o | (c.run calls).isAcked o = false } (c.run calls).committed
      ∧ (∀ more, (c.run calls).committed ≤ (c.run (calls ++ more)).committed)
      ∧ (c.run calls).ahead.Pairwise (fun a b => a.2 < b.1)
      ∧ ∀ r ∈ (c.run calls).ahead, r.1 < r.2 ∧ (c.run calls).committed < r.1 := by
  have hwf := Start.wf h
  obtain ⟨hrun, hset⟩ := run_acked_iff hwf calls
  refine ⟨fun o => ?_, hrun.isLeast, fun more => ?_, hrun.runs.pairwise, fun r hr => ?_⟩
  · have hcommits : (∃ call ∈ calls, call.Commits o)
        ↔ ∃ upTo, Call.commitUpTo upTo ∈ calls ∧ o < upTo.toNat := by
      constructor
      · rintro ⟨call, hmem, hc⟩
        cases call with
        | commitUpTo upTo => exact ⟨upTo, hmem, hc⟩
        | ack => cases hc
        | ackBounded => cases hc
      · rintro ⟨upTo, hmem, hlt⟩
        exact ⟨.commitUpTo upTo, hmem, hlt⟩
    have hiff := hset o
    rw [hcommits] at hiff
    refine hiff.trans ?_
    show c.isAcked o = true ∨ _ ↔ _
    rw [hwf.isAcked_iff, or_assoc]
    rfl
  · rw [show c.run (calls ++ more) = (c.run calls).run more from List.foldl_append]
    obtain ⟨hmore, hset'⟩ := run_acked_iff hrun more
    exact committed_le_of_acked_subset hrun hmore fun o ho => (hset' o).mpr (.inl ho)
  · obtain ⟨hlt, hlt'⟩ := hrun.runs.lt_of_mem hr
    exact ⟨hlt', hlt⟩

theorem run_refines_acked_set_new :
    new.isAcked 1 = false
      ∧ (new.run [.ackBounded 1 4, .commitUpTo 1]).isAcked 1 = true := by
  refine ⟨by decide, ?_⟩
  refine ((run_refines_acked_set .new AckCursor.new rfl [.ackBounded 1 4, .commitUpTo 1]).1 1).mpr
    ?_
  exact .inr (.inr (.inl ⟨(AckCursor.new, .ackBounded 1 4), by simp [history],
    by decide, by decide, by decide⟩))

/-- An acknowledgement of the last offset is not shed and still leaves it unacknowledged. -/
theorem last_offset_not_recorded :
    (new.ackBounded u64Max 4).1 = .duplicate
      ∧ (new.run [.ackBounded 18446744073709551615 4]).isAcked u64Max = false := by
  decide

end AckCursor

end IronBus
