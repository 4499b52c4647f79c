import IronBus.Spec.CursorCorrect

/-!
# Acknowledging under a cap on the ranges

A bounded acknowledgement is shed when it would open one range too many. A range opens at an
offset whose predecessor is not acknowledged, so the number of ranges is a number of offsets of the
acknowledged set, whatever the order of the acknowledgements. While something stays shed, either one
of the pending offsets touches what is acknowledged, or each of them opens a range of the uncapped
cursor.

Key results:
- `shed_iff`: when an acknowledgement is shed
- `length_retry_lt`: a round of retries takes something, if the uncapped set fits under the cap
- `capped_converges`: retrying reaches the uncapped set exactly when it fits
-/

namespace IronBus

open List

/-- A range opens where its predecessor is not covered. -/
theorem Runs.start_iff {lo : Nat} {l : List (Nat × Nat)} (h : Runs lo l) (o : Nat) :
    o ∈ l.map Prod.fst ↔ lo < o ∧ Covers l o ∧ ¬ Covers l (o - 1) := by
  induction l generalizing lo with
  | nil => simp
  | cons r rest ih =>
    obtain ⟨hlo, hlt, hrest⟩ := h
    have hbelow : ∀ x, Covers rest x → r.2 < x := fun x hx =>
      not_le.mp fun hle => hrest.not_covers hle hx
    have ho := hbelow o
    have hpred := hbelow (o - 1)
    rw [map_cons, mem_cons, ih hrest, covers_cons, covers_cons]
    constructor
    · rintro (rfl | ⟨hgap, hcov, hnot⟩)
      · refine ⟨hlo, .inl ⟨le_rfl, hlt⟩, not_or.mpr ⟨by omega, fun hc => ?_⟩⟩
        have := hpred hc
        omega
      · exact ⟨by omega, .inr hcov, not_or.mpr ⟨by omega, hnot⟩⟩
    · rintro ⟨hgap, hin | hcov, hnot⟩
      · exact .inl (by omega)
      · exact .inr ⟨ho hcov, hcov, fun hc => hnot (.inr hc)⟩

namespace AckCursor

variable {c c' : AckCursor} {o maxRuns : Nat}

/-- The offsets at which a range of the ahead set opens. -/
def opens (c : AckCursor) : Finset Nat := (c.ahead.map Prod.fst).toFinset

section

variable (h : c.Wf)

include h

theorem mem_opens : o ∈ c.opens ↔ 0 < o ∧ o ∈ c.acked ∧ o - 1 ∉ c.acked := by
  have hacked (x : Nat) : x ∈ c.acked ↔ x < c.committed ∨ Covers c.ahead x := h.isAcked_iff x
  rw [opens, mem_toFinset, h.runs.start_iff, hacked, hacked, not_or]
  constructor
  · rintro ⟨hlt, hcov, hnot⟩
    exact ⟨by omega, .inr hcov, by omega, hnot⟩
  · rintro ⟨hpos, hin, hge, hnot⟩
    exact ⟨by omega, hin.resolve_left (by omega), hnot⟩

theorem card_opens : c.opens.card = c.ahead.length := by
  have hnodup : (c.ahead.map Prod.fst).Nodup := by
    rw [List.Nodup, pairwise_map]
    refine h.runs.pairwise.imp_of_mem fun {a b} ha _ hab => ?_
    have := (h.runs.lt_of_mem ha).2
    omega
  rw [opens, toFinset_card_of_nodup hnodup, length_map]

/-! ## One call -/

theorem mem_acked_iff (o : Nat) : o ∈ c.acked ↔ o < c.committed ∨ Covers c.ahead o :=
  h.isAcked_iff o

/-- Which neighbours of an unacknowledged offset the call looks at. -/
theorem merges_iff (ho : o ∉ c.acked) :
    (c.mergesLeft o = true ↔ 0 < o ∧ Covers c.ahead (o - 1))
      ∧ (c.mergesRight o (o + 1) = true ↔ Covers c.ahead (o + 1)) := by
  have hnot : ¬ Covers c.ahead o := fun hcov => ho ((mem_acked_iff h o).mpr (.inr hcov))
  obtain ⟨lower, upper, hsplit, hle, hlt⟩ := h.runs.split hnot
  have hruns := h.runs
  have hc : c = ⟨c.committed, lower ++ upper⟩ := by rw [← hsplit]
  rw [hsplit] at hruns ⊢
  have hslot := slot_append c.committed hruns hle hlt
  obtain ⟨hlower, hupper⟩ := runs_append.mp hruns
  rw [hc, mergesLeft_append hslot, mergesRight_append hslot]
  constructor
  · rw [covers_append]
    constructor
    · intro hany
      obtain ⟨r, hlast, hr⟩ := Option.any_eq_true _ _ |>.mp hany
      have hmem := mem_of_getLast? hlast
      have hpos := (hlower.lt_of_mem hmem).2
      rw [beq_iff_eq] at hr
      exact ⟨by omega, .inl ⟨r, hmem, by omega, by omega⟩⟩
    · rintro ⟨hpos, ⟨r, hmem, hr⟩ | ⟨r, hmem, hr⟩⟩
      · -- `r` ends at `o`, and a later range of `lower` would have to start past `o`
        have hend := hle r hmem
        rcases eq_nil_or_concat' lower with rfl | ⟨init, last, rfl⟩
        · cases hmem
        rcases mem_append.mp hmem with hinit | hlast
        · have hgap :=
            (pairwise_append.mp hlower.pairwise).2.2 r hinit last (mem_singleton_self _)
          have hmem' : last ∈ init ++ [last] := by simp
          have := (hlower.lt_of_mem hmem').2
          have := hle last hmem'
          omega
        · rw [mem_singleton] at hlast
          subst hlast
          simp
          omega
      · have := hlt r hmem
        omega
  · rw [covers_append]
    constructor
    · intro hany
      obtain ⟨r, hhead, hr⟩ := Option.any_eq_true _ _ |>.mp hany
      have hmem := mem_of_mem_head? hhead
      have := (hupper.lt_of_mem hmem).2
      rw [beq_iff_eq] at hr
      exact .inr ⟨r, hmem, by omega, by omega⟩
    · rintro (⟨r, hmem, hr⟩ | ⟨r, hmem, hr⟩)
      · have := hle r hmem
        omega
      · have hstart := hlt r hmem
        cases upper with
        | nil => cases hmem
        | cons first rest =>
          rcases mem_cons.mp hmem with rfl | hrest
          · simp
            omega
          · have := (hupper.2.2.lt_of_mem hrest).1
            have := hupper.2.1
            have := hlt first (mem_cons_self ..)
            omega

/-- The offset extends what is acknowledged, at the watermark or next to a range. -/
def Touches (c : AckCursor) (o : Nat) : Prop := o = 0 ∨ o - 1 ∈ c.acked ∨ o + 1 ∈ c.acked

/-- What an acknowledgement that is neither repeated nor exhausted finds. -/
theorem shed_iff_of_fresh (ho : o ∉ c.acked) (hlt : o < u64Max) :
    (c.ackBounded o maxRuns).1 = .shed ↔ maxRuns ≤ c.ahead.length ∧ ¬ c.Touches o := by
  have hnext : checkedAdd o 1 = some (o + 1) := if_pos (by omega)
  obtain ⟨hge, -⟩ := not_or.mp fun hor => ho ((mem_acked_iff h o).mpr hor)
  obtain ⟨hleft, hright⟩ := merges_iff h ho
  have htouch : ¬ c.Touches o ↔ o ≠ c.committed ∧ c.mergesLeft o = false
      ∧ c.mergesRight o (o + 1) = false := by
    rw [Touches, mem_acked_iff h, mem_acked_iff h, ← Bool.not_eq_true, ← Bool.not_eq_true, hleft,
      hright]
    have hsucc : ¬ o + 1 < c.committed := by omega
    by_cases hcom : o = c.committed
    · simp only [hcom, ne_eq, not_true_eq_false, false_and, iff_false, not_not]
      omega
    · have hpred : ¬ o - 1 < c.committed := by omega
      have hpos : o ≠ 0 := by omega
      simp [hsucc, hcom, hpred, hpos, Nat.pos_iff_ne_zero]
  rw [htouch, ackBounded, if_neg (show ¬ c.isAcked o = true from ho), hnext]
  simp only
  split_ifs with hcond
  · exact ⟨fun _ => hcond, fun _ => rfl⟩
  · exact ⟨nofun, fun hc => absurd hc hcond⟩

/-- A call is shed on an offset that touches nothing acknowledged, with the ranges at the cap. -/
theorem shed_spec (hshed : (c.ackBounded o maxRuns).1 = .shed) :
    c.ackBounded o maxRuns = (.shed, c) ∧ maxRuns ≤ c.ahead.length ∧ o < u64Max ∧ o ∉ c.acked
      ∧ ¬ c.Touches o := by
  have hlt : o < u64Max := by
    by_contra hge
    have hnext : checkedAdd o 1 = none := if_neg (by omega)
    rw [ackBounded, hnext] at hshed
    split at hshed <;> cases hshed
  have ho : o ∉ c.acked := fun hacked => by
    rw [ackBounded, if_pos (show c.isAcked o = true from hacked)] at hshed
    cases hshed
  obtain ⟨hlen, htouch⟩ := (shed_iff_of_fresh h ho hlt).mp hshed
  rcases ackBounded_cases h o maxRuns with ⟨heq, -⟩ | ⟨heq, -⟩ | ⟨c', heq, -⟩
  · rw [heq] at hshed
    cases hshed
  · exact ⟨heq, hlen, hlt, ho, htouch⟩
  · rw [heq] at hshed
    cases hshed

theorem opens_of_acked (h' : c'.Wf) (hset : c'.acked = c.acked ∪ {o}) :
    c'.opens ⊆ Insert.insert o c.opens := by
  intro x hx
  rw [mem_opens h', hset] at hx
  obtain ⟨hpos, hin, hout⟩ := hx
  rw [Finset.mem_insert, mem_opens h]
  rcases hin with hin | hin
  · exact .inr ⟨hpos, hin, fun hc => hout (.inl hc)⟩
  · exact .inl hin

theorem length_le_card {t : Finset Nat} (hsub : c.opens ⊆ t) :
    c.ahead.length ≤ t.card := by
  rw [← card_opens h]
  exact Finset.card_le_card hsub

/-- The acknowledged set determines the watermark and how many ranges there are. -/
theorem eq_of_acked_eq (h' : c'.Wf) (hset : c.acked = c'.acked) :
    c.committed = c'.committed ∧ c.ahead.length = c'.ahead.length := by
  refine ⟨le_antisymm (committed_le_of_acked_subset h h' hset.subset)
    (committed_le_of_acked_subset h' h hset.superset), ?_⟩
  have hopens : c.opens = c'.opens := by
    ext x
    rw [mem_opens h, mem_opens h', hset]
  rw [← card_opens h, ← card_opens h', hopens]

/-- A call leaves an offset either acknowledged or shed, the last one of the range apart. -/
theorem acked_or_shed (o maxRuns : Nat) :
    (c.ackBounded o maxRuns).2.Wf ∧ ∀ x, (x ∈ (c.ackBounded o maxRuns).2.acked
      ∨ ((c.ackBounded o maxRuns).1 = .shed ∧ x = o)) ↔ x ∈ c.acked ∨ (x = o ∧ o < u64Max) := by
  by_cases hshed : (c.ackBounded o maxRuns).1 = .shed
  · obtain ⟨heq, -, hlt, -⟩ := shed_spec h hshed
    simp [heq, h, hlt]
  rcases ackBounded_cases h o maxRuns with ⟨heq, hin⟩ | ⟨heq, -⟩ | ⟨c', heq, hlt, hwf, hset⟩
  · simp only [heq, h, true_and, reduceCtorEq, false_and, or_false]
    refine fun x => ⟨.inl, ?_⟩
    rintro (hx | ⟨rfl, hlt⟩)
    · exact hx
    · exact hin.resolve_right (by omega)
  · rw [heq] at hshed
    exact absurd rfl hshed
  · simpa [heq, hwf, hset, hlt] using fun x => or_comm

theorem acked_ack (o : Nat) :
    (c.ack o).2.Wf ∧ ∀ x, x ∈ (c.ack o).2.acked ↔ x ∈ c.acked ∨ (x = o ∧ o < u64Max) := by
  obtain ⟨hwf, hset⟩ := acked_or_shed h o usizeMax
  refine ⟨hwf, fun x => ?_⟩
  rw [← hset x]
  exact ⟨.inl, fun hx => hx.resolve_right fun hc => ackBounded_usizeMax_ne_shed h o hc.1⟩

/-- A cap that holds before a call holds after it. -/
theorem length_ackBounded_le (hlen : c.ahead.length ≤ maxRuns) :
    (c.ackBounded o maxRuns).2.ahead.length ≤ maxRuns := by
  rcases ackBounded_cases h o maxRuns with ⟨heq, -⟩ | ⟨heq, -⟩ | ⟨c', heq, hlt, hwf, hset⟩
  · rwa [heq]
  · rwa [heq]
  rw [heq]
  have hfresh : o ∉ c.acked := fun hacked => by
    rw [ackBounded, if_pos (show c.isAcked o = true from hacked)] at heq
    cases heq
  have hnot : ¬ (maxRuns ≤ c.ahead.length ∧ ¬ c.Touches o) := fun hcond => by
    have hshed := (shed_iff_of_fresh h hfresh hlt).mpr hcond
    rw [heq] at hshed
    cases hshed
  have hsub := opens_of_acked h hwf hset
  have hcard : (Insert.insert o c.opens).card ≤ c.ahead.length + 1 :=
    card_opens h ▸ Finset.card_insert_le _ _
  by_cases hroom : c.ahead.length < maxRuns
  · exact Nat.le_trans (length_le_card hwf hsub) (by omega)
  -- at the cap the offset touches something: it opens no range, or moves where one opens
  have htouch : c.Touches o := not_not.mp fun hn => hnot ⟨by omega, hn⟩
  have hdrop : o ∉ c'.opens ∨ (o + 1 ∈ c.opens ∧ o + 1 ∉ c'.opens) := by
    rw [mem_opens h, mem_opens hwf, mem_opens hwf, hset]
    rcases htouch with rfl | hpred | hsucc
    · exact .inl (by simp)
    · exact .inl fun hin => hin.2.2 (.inl hpred)
    · exact .inr ⟨⟨by omega, hsucc, by simpa using hfresh⟩, by simp⟩
  rcases hdrop with hout | ⟨hin, hout⟩
  · refine Nat.le_trans (length_le_card hwf fun x hx => ?_) (card_opens h ▸ hlen)
    exact (Finset.mem_insert.mp (hsub hx)).resolve_left fun hxo => hout (hxo ▸ hx)
  · have hle := length_le_card hwf (t := (Insert.insert o c.opens).erase (o + 1)) fun x hx =>
      Finset.mem_erase.mpr ⟨fun hxo => hout (hxo ▸ hx), hsub hx⟩
    rw [Finset.card_erase_of_mem (Finset.mem_insert_of_mem hin)] at hle
    show c'.ahead.length ≤ maxRuns
    omega

/-- A shed call is one that would take an uncapped cursor past the cap. -/
theorem shed_iff (hlen : c.ahead.length ≤ maxRuns) :
    (c.ackBounded o maxRuns).1 = .shed ↔ maxRuns < (c.ack o).2.ahead.length := by
  obtain ⟨hwf, hset⟩ := acked_ack h o
  constructor
  · intro hshed
    obtain ⟨-, hge, hlt, hfresh, htouch⟩ := shed_spec h hshed
    have hsub : Insert.insert o c.opens ⊆ (c.ack o).2.opens := by
      intro x hx
      rw [mem_opens hwf, hset, hset]
      rcases Finset.mem_insert.mp hx with rfl | hx
      · exact ⟨Nat.pos_of_ne_zero fun h0 => htouch (.inl h0), .inr ⟨rfl, hlt⟩,
          not_or.mpr ⟨fun hp => htouch (.inr (.inl hp)), fun hp => htouch (.inl (by omega))⟩⟩
      · obtain ⟨hpos, hin, hout⟩ := (mem_opens h).mp hx
        refine ⟨hpos, .inl hin, not_or.mpr ⟨hout, fun hp => htouch (.inr (.inr ?_))⟩⟩
        have hxo : o + 1 = x := by omega
        rwa [hxo]
    have hnew : o ∉ c.opens := fun hin => hfresh ((mem_opens h).mp hin).2.1
    have hcard := Finset.card_le_card hsub
    rw [Finset.card_insert_of_notMem hnew, card_opens h, card_opens hwf] at hcard
    omega
  · intro hmore
    by_contra hne
    obtain ⟨hwf', hset'⟩ := acked_or_shed h o maxRuns
    have hsame : (c.ack o).2.acked = (c.ackBounded o maxRuns).2.acked := by
      ext x
      rw [hset, ← hset']
      simp [hne]
    have hle := length_ackBounded_le (o := o) h hlen
    rw [← (eq_of_acked_eq hwf hwf' hsame).2] at hle
    omega

/-! ## A sequence of calls, and the retries of what it shed -/

/-- Bounded acknowledgements in order; the cursor they leave and the offsets shed. -/
def ackAll (maxRuns : Nat) : AckCursor → List Nat → AckCursor × List Nat
  | c, [] => (c, [])
  | c, o :: os =>
    let rest := ackAll maxRuns (c.ackBounded o maxRuns).2 os
    (rest.1, if (c.ackBounded o maxRuns).1 = .shed then o :: rest.2 else rest.2)

/-- Acknowledges what was shed once more, in increasing order. -/
def retry (maxRuns : Nat) (s : AckCursor × List Nat) : AckCursor × List Nat :=
  ackAll maxRuns s.1 (s.2.insertionSort (· ≤ ·))

/-- The same acknowledgements without a cap. -/
def uncapped (c : AckCursor) (os : List Nat) : AckCursor := os.foldl (fun c o => (c.ack o).2) c

theorem uncapped_spec (os : List Nat) :
    (c.uncapped os).Wf
      ∧ ∀ x, x ∈ (c.uncapped os).acked ↔ x ∈ c.acked ∨ (x ∈ os ∧ x < u64Max) := by
  induction os generalizing c with
  | nil => exact ⟨h, fun x => by simp [uncapped]⟩
  | cons o os ih =>
    obtain ⟨hwf, hset⟩ := acked_ack h o
    obtain ⟨hwf', hset'⟩ := ih hwf
    refine ⟨hwf', fun x => ?_⟩
    show x ∈ ((c.ack o).2.uncapped os).acked ↔ _
    rw [hset', hset, mem_cons]
    grind

theorem ackAll_spec (maxRuns : Nat) (os : List Nat) :
    (ackAll maxRuns c os).1.Wf
      ∧ (∀ x, (x ∈ (ackAll maxRuns c os).1.acked ∨ x ∈ (ackAll maxRuns c os).2)
        ↔ x ∈ c.acked ∨ (x ∈ os ∧ x < u64Max))
      ∧ (c.ahead.length ≤ maxRuns → (ackAll maxRuns c os).1.ahead.length ≤ maxRuns) := by
  induction os generalizing c with
  | nil => exact ⟨h, fun x => by simp [ackAll], id⟩
  | cons o os ih =>
    obtain ⟨hwf, hset⟩ := acked_or_shed h o maxRuns
    obtain ⟨hwf', hset', hlen⟩ := ih hwf
    refine ⟨hwf', fun x => ?_, fun hle => hlen (length_ackBounded_le h hle)⟩
    have hx := hset x
    have hx' := hset' x
    simp only [ackAll, mem_cons]
    split <;> grind

/-- A pass that sheds every offset made each of its calls on the cursor it began with. -/
theorem ackAll_all_shed (maxRuns : Nat) (os : List Nat) :
    (ackAll maxRuns c os).2.length ≤ os.length
      ∧ ((ackAll maxRuns c os).2.length = os.length →
        ∀ o ∈ os, (c.ackBounded o maxRuns).1 = .shed) := by
  induction os generalizing c with
  | nil => exact ⟨le_rfl, fun _ => nofun⟩
  | cons o os ih =>
    obtain ⟨hle, hall⟩ := ih (acked_or_shed h o maxRuns).1
    simp only [ackAll]
    split_ifs with hshed
    · obtain ⟨heq, -⟩ := shed_spec h hshed
      rw [heq] at hle hall ⊢
      refine ⟨by simpa using hle, fun hlen x hx => ?_⟩
      rcases mem_cons.mp hx with rfl | hx
      · exact hshed
      · exact hall (by simpa using hlen) x hx
    · refine ⟨by simp only [length_cons]; omega, fun hlen => ?_⟩
      simp only [length_cons] at hlen
      omega

end

/-- Every offset of `u` is acknowledged by the cursor or still pending. -/
structure Pending (u : AckCursor) (s : AckCursor × List Nat) : Prop where
  wf : s.1.Wf
  acked_or_pending : ∀ x, (x ∈ s.1.acked ∨ x ∈ s.2) ↔ x ∈ u.acked

namespace Pending

variable {u : AckCursor} {s : AckCursor × List Nat}

theorem of_ackAll (h : c.Wf) (maxRuns : Nat) (os : List Nat) :
    Pending (c.uncapped os) (ackAll maxRuns c os) := by
  obtain ⟨hwf, hset, -⟩ := ackAll_spec h maxRuns os
  exact ⟨hwf, fun x => (hset x).trans ((uncapped_spec h os).2 x).symm⟩

theorem retry (h : Pending u s) (hu : u.Wf) : Pending u (retry maxRuns s) := by
  obtain ⟨hwf, hset, -⟩ := ackAll_spec h.wf maxRuns (s.2.insertionSort (· ≤ ·))
  refine ⟨hwf, fun x => (hset x).trans ?_⟩
  have hlt : x ∈ u.acked → x < u64Max := hu.lt_of_isAcked
  have hx := h.acked_or_pending x
  rw [mem_insertionSort]
  grind

/-- While the uncapped ranges fit, a pass over the pending offsets records one of them. If it shed
them all, the ranges of the cursor would open in `u` too, and so would one at the least pending
offset. -/
theorem length_retry_lt (h : Pending u s) (hu : u.Wf) (hfit : u.ahead.length ≤ maxRuns)
    (hne : s.2 ≠ []) : (AckCursor.retry maxRuns s).2.length < s.2.length := by
  obtain ⟨hle, hall⟩ := ackAll_all_shed h.wf maxRuns (s.2.insertionSort (· ≤ ·))
  rw [length_insertionSort] at hle hall
  refine Nat.lt_of_le_of_ne hle fun heq => ?_
  have hshed : ∀ o ∈ s.2, maxRuns ≤ s.1.ahead.length ∧ o ∉ s.1.acked ∧ ¬ s.1.Touches o := by
    intro o ho
    obtain ⟨-, hlen, -, hfresh, htouch⟩ :=
      shed_spec h.wf (hall heq o ((mem_insertionSort _).mpr ho))
    exact ⟨hlen, hfresh, htouch⟩
  have hpend : s.2.toFinset.Nonempty := toFinset_nonempty_iff _ |>.mpr hne
  obtain ⟨hlen, hfresh, htouch⟩ := hshed _ (mem_toFinset.mp (Finset.min'_mem _ hpend))
  have hleast (o : Nat) (ho : o ∈ s.2) : s.2.toFinset.min' hpend ≤ o :=
    Finset.min'_le _ _ (mem_toFinset.mpr ho)
  have hmem := mem_toFinset.mp (Finset.min'_mem _ hpend)
  generalize s.2.toFinset.min' hpend = m at *
  have hsub : Insert.insert m s.1.opens ⊆ u.opens := by
    intro x hx
    rw [mem_opens hu, ← h.acked_or_pending, ← h.acked_or_pending]
    rcases Finset.mem_insert.mp hx with rfl | hx
    · have hpos : x ≠ 0 := fun h0 => htouch (.inl h0)
      refine ⟨Nat.pos_of_ne_zero hpos, .inr hmem, not_or.mpr ⟨fun hp => ?_, fun hp => ?_⟩⟩
      · exact htouch (.inr (.inl hp))
      · have := hleast _ hp
        omega
    · obtain ⟨hpos, hin, hout⟩ := (mem_opens h.wf).mp hx
      refine ⟨hpos, .inl hin, not_or.mpr ⟨hout, fun hp => (hshed _ hp).2.2 (.inr (.inr ?_))⟩⟩
      rwa [Nat.sub_add_cancel hpos]
  have hnew : m ∉ s.1.opens := fun hin => hfresh ((mem_opens h.wf).mp hin).2.1
  have hcard := Finset.card_le_card hsub
  rw [Finset.card_insert_of_notMem hnew, card_opens h.wf, card_opens hu] at hcard
  omega

theorem exists_retry_nil (h : Pending u s) (hu : u.Wf) (hfit : u.ahead.length ≤ maxRuns) :
    ∃ n, Pending u ((AckCursor.retry maxRuns)^[n] s)
      ∧ ((AckCursor.retry maxRuns)^[n] s).2 = [] := by
  induction hn : s.2.length using Nat.strong_induction_on generalizing s with
  | _ k ih =>
    by_cases hnil : s.2 = []
    · exact ⟨0, h, hnil⟩
    · obtain ⟨n, hn⟩ := ih _ (hn ▸ h.length_retry_lt hu hfit hnil) (h.retry hu) rfl
      exact ⟨n + 1, hn⟩

end Pending

theorem length_retries_le (h : c.Wf) (hlen : c.ahead.length ≤ maxRuns) (pending : List Nat)
    (n : Nat) : ((retry maxRuns)^[n] (c, pending)).1.Wf
      ∧ ((retry maxRuns)^[n] (c, pending)).1.ahead.length ≤ maxRuns := by
  induction n generalizing c pending with
  | zero => exact ⟨h, hlen⟩
  | succ n ih =>
    obtain ⟨hwf, -, hle⟩ := ackAll_spec h maxRuns (pending.insertionSort (· ≤ ·))
    exact ih hwf (hle hlen) _

/-- Under a cap the ranges stay within it, a call is shed exactly when it would open one more, and
only a recorded call changes the cursor. Re-acknowledging what was shed reaches the watermark and
the set of the uncapped cursor exactly when the uncapped ranges fit under the cap, as they do
whenever the acknowledged offsets leave no gap. -/
theorem capped_converges (c : AckCursor) (maxRuns : Nat) (h : c.Wf)
    (hlen : c.ahead.length ≤ maxRuns) (os : List Nat) :
    (ackAll maxRuns c os).1.ahead.length ≤ maxRuns
      ∧ (∀ o, (((ackAll maxRuns c os).1.ackBounded o maxRuns).1 = .shed
            ↔ maxRuns < ((ackAll maxRuns c os).1.ack o).2.ahead.length)
          ∧ (((ackAll maxRuns c os).1.ackBounded o maxRuns).1 ≠ .recorded →
            ((ackAll maxRuns c os).1.ackBounded o maxRuns).2 = (ackAll maxRuns c os).1))
      ∧ ((∃ n, ((retry maxRuns)^[n] (ackAll maxRuns c os)).2 = []
            ∧ ((retry maxRuns)^[n] (ackAll maxRuns c os)).1.committed = (c.uncapped os).committed
            ∧ ((retry maxRuns)^[n] (ackAll maxRuns c os)).1.acked = (c.uncapped os).acked)
          ↔ (c.uncapped os).ahead.length ≤ maxRuns) := by
  obtain ⟨hwf, -, hle⟩ := ackAll_spec h maxRuns os
  obtain ⟨hwfu, -⟩ := uncapped_spec h os
  refine ⟨hle hlen, fun o => ⟨shed_iff hwf (hle hlen), fun hne => ?_⟩, ?_, fun hfit => ?_⟩
  · rcases ackBounded_cases hwf o maxRuns with ⟨heq, -⟩ | ⟨heq, -⟩ | ⟨c', heq, -⟩
    · rw [heq]
    · rw [heq]
    · rw [heq] at hne
      exact absurd rfl hne
  · rintro ⟨n, -, -, hset⟩
    obtain ⟨hwfn, hlenn⟩ := length_retries_le hwf (hle hlen) (ackAll maxRuns c os).2 n
    rw [← (eq_of_acked_eq hwfn hwfu hset).2]
    exact hlenn
  · obtain ⟨n, hpend, hnil⟩ := (Pending.of_ackAll h maxRuns os).exists_retry_nil hwfu hfit
    have hset : ((retry maxRuns)^[n] (ackAll maxRuns c os)).1.acked = (c.uncapped os).acked := by
      ext x
      rw [← hpend.acked_or_pending, hnil]
      simp
    exact ⟨n, hnil, (eq_of_acked_eq hpend.wf hwfu hset).1, hset⟩

/-- The shed offset of a run without gaps is taken by the first retry. -/
theorem capped_converges_gap_filled :
    (ackAll 1 new [3, 1, 0, 2]).2 = [1]
      ∧ ∃ n, ((retry 1)^[n] (ackAll 1 new [3, 1, 0, 2])).2 = []
        ∧ ((retry 1)^[n] (ackAll 1 new [3, 1, 0, 2])).1.committed = 4 := by
  have hwf : new.Wf := ⟨trivial, Nat.zero_le _, nofun⟩
  have hfit : (new.uncapped [3, 1, 0, 2]).ahead.length ≤ 1 := by decide
  obtain ⟨n, hnil, hcom, -⟩ :=
    (capped_converges new 1 hwf (Nat.zero_le _) [3, 1, 0, 2]).2.2.mpr hfit
  exact ⟨by decide, n, hnil, hcom⟩

/-- Two acknowledgements with a gap between them need two ranges: under a cap of one the second
stays shed through every retry. -/
theorem retry_never_takes_seven :
    (new.uncapped [5, 7]).isAcked 7 = true
      ∧ ∀ n, ((retry 1)^[n] (ackAll 1 new [5, 7])).1.isAcked 7 = false := by
  have hfix : retry 1 (ackAll 1 new [5, 7]) = ackAll 1 new [5, 7] := by decide
  refine ⟨by decide, fun n => ?_⟩
  rw [Function.iterate_fixed hfix]
  decide

end AckCursor

end IronBus
