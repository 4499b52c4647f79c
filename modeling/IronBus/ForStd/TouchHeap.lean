import IronBus.ForStd.Assoc

/-!
# Dropping the least recently touched

A bounded map makes room by dropping the entry that was touched longest ago. Touches lie on a
heap, least first, and are invalidated lazily: a touch whose entry is gone or carries another
stamp is stale and is skipped when popped. The heap is rebuilt from the map when stale touches
outnumber the entries.
-/

namespace TouchHeap

open List

variable {κ β : Type} [DecidableEq κ]

/-- Pops touches while the map has reached the cap, dropping each entry whose touch is current. -/
def evict (stamp : β → Nat) (cap : Nat) :
    List (Nat × κ) → Assoc κ β → Assoc κ β × List (Nat × κ)
  | [], m => (m, [])
  | (touch, k) :: rest, m =>
    if m.size < cap then (m, (touch, k) :: rest)
    else if (m.lookup k).any fun b => stamp b == touch then evict stamp cap rest (m.erase k)
    else evict stamp cap rest m

/-- The order of the heap: by stamp, then by key. -/
def le [LT κ] (a b : Nat × κ) : Prop := a.1 < b.1 ∨ a.1 = b.1 ∧ ¬ b.2 < a.2

instance [LT κ] [DecidableLT κ] : DecidableRel (le (κ := κ)) :=
  fun _ _ => inferInstanceAs (Decidable (_ ∨ _))

/-- Pushes a touch, rebuilding the heap from the map when stale touches pile up. -/
def push [LT κ] [DecidableLT κ] (stamp : β → Nat) (m : Assoc κ β) (heap : List (Nat × κ))
    (k : κ) (now : Nat) : List (Nat × κ) :=
  let heap := heap.orderedInsert le (now, k)
  if m.size * 2 < heap.length then
    (m.entries.map fun e => (stamp e.2, e.1)).insertionSort le
  else heap

/-- Every entry's current stamp is on the heap. -/
def Covers (stamp : β → Nat) (heap : List (Nat × κ)) (m : Assoc κ β) : Prop :=
  ∀ k b, m.lookup k = some b → (stamp b, k) ∈ heap

variable {stamp : β → Nat} {cap : Nat} {heap : List (Nat × κ)} {m : Assoc κ β}

/-- Popping touches only drops entries. -/
theorem lookup_evict {k : κ} {b : β} (h : (evict stamp cap heap m).1.lookup k = some b) :
    m.lookup k = some b := by
  induction heap generalizing m with
  | nil => exact h
  | cons t heap ih =>
    unfold evict at h
    split at h
    · exact h
    · split at h
      · exact (Assoc.lookup_erase_eq_some.mp (ih h)).2
      · exact ih h

/-- A touch that is not current can go. -/
theorem Covers.tail {t : Nat × κ} (h : Covers stamp (t :: heap) m)
    (hstale : ¬ (m.lookup t.2).any (fun b => stamp b == t.1)) : Covers stamp heap m := by
  intro k b hk
  rcases mem_cons.mp (h k b hk) with heq | hmem
  · subst heq
    simp [hk] at hstale
  · exact hmem

/-- A touch can go with its entry. -/
theorem Covers.erase_tail {t : Nat × κ} (h : Covers stamp (t :: heap) m) :
    Covers stamp heap (m.erase t.2) := by
  intro k b hk
  obtain ⟨hkt, hk⟩ := Assoc.lookup_erase_eq_some.mp hk
  rcases mem_cons.mp (h k b hk) with heq | hmem
  · subst heq
    exact absurd rfl hkt
  · exact hmem

theorem Covers.evict (h : Covers stamp heap m) :
    Covers stamp (evict stamp cap heap m).2 (evict stamp cap heap m).1 := by
  induction heap generalizing m with
  | nil => exact h
  | cons t heap ih =>
    unfold TouchHeap.evict
    split
    · exact h
    · split
      · exact ih h.erase_tail
      · exact ih (h.tail ‹_›)

/-- Replacing an entry by one of the same stamp keeps the map covered. -/
theorem Covers.insert_of_mem {k : κ} {b : β} (h : Covers stamp heap m)
    (hmem : (stamp b, k) ∈ heap) : Covers stamp heap (AList.insert k b m) := by
  intro k' b' hk
  obtain ⟨rfl, rfl⟩ | ⟨-, hk⟩ := Assoc.lookup_insert_eq_some.mp hk
  · exact hmem
  · exact h k' b' hk

/-- Popping from a heap that covers the map makes room. -/
theorem Covers.size_evict_lt (h : Covers stamp heap m) (hcap : 0 < cap) :
    (TouchHeap.evict stamp cap heap m).1.size < cap := by
  induction heap generalizing m with
  | nil =>
    have hnil : m.entries = [] := by
      refine eq_nil_iff_forall_not_mem.mpr fun e he => ?_
      exact absurd (h e.1 e.2 (Assoc.mem_entries_iff.mp he)) (not_mem_nil)
    simpa [TouchHeap.evict, Assoc.size, hnil] using hcap
  | cons t heap ih =>
    unfold TouchHeap.evict
    split
    · assumption
    · split
      · exact ih h.erase_tail
      · exact ih (h.tail ‹_›)

theorem evict_suffix : (evict stamp cap heap m).2 <:+ heap := by
  induction heap generalizing m with
  | nil => exact suffix_refl _
  | cons t heap ih =>
    unfold TouchHeap.evict
    split
    · exact suffix_refl _
    · split
      · exact ih.trans (suffix_cons _ _)
      · exact ih.trans (suffix_cons _ _)

variable [LT κ] [DecidableLT κ]

/-- Pushing the touch of the one entry whose stamp is new keeps the map covered. -/
theorem Covers.push {k : κ} {now : Nat}
    (h : ∀ k' b, m.lookup k' = some b → (stamp b, k') ∈ heap ∨ k' = k ∧ stamp b = now) :
    Covers stamp (push stamp m heap k now) m := by
  intro k' b hk
  simp only [TouchHeap.push]
  split
  · rw [mem_insertionSort, mem_map]
    exact ⟨⟨k', b⟩, Assoc.mem_entries_iff.mpr hk, rfl⟩
  · rw [mem_orderedInsert]
    rcases h k' b hk with hmem | ⟨rfl, rfl⟩
    · exact .inr hmem
    · exact .inl rfl

/-- Storing an entry under a new stamp and pushing its touch keeps the map covered. -/
theorem Covers.insert_push {k : κ} {b : β} {now : Nat} (h : Covers stamp heap m)
    (hb : stamp b = now) :
    Covers stamp (TouchHeap.push stamp (AList.insert k b m) heap k now) (AList.insert k b m) := by
  refine Covers.push fun k' b' hk => ?_
  by_cases heq : k' = k
  · subst heq
    rw [AList.lookup_insert] at hk
    exact .inr ⟨rfl, Option.some.inj hk ▸ hb⟩
  · rw [AList.lookup_insert_ne heq] at hk
    exact .inl (h k' b' hk)

omit [DecidableEq κ] in
/-- However stale, the heap is at most twice the map after a push. -/
theorem length_push_le (m : Assoc κ β) (heap : List (Nat × κ)) (k : κ) (now : Nat) :
    (push stamp m heap k now).length ≤ 2 * m.size := by
  simp only [TouchHeap.push]
  split
  · rw [length_insertionSort, length_map]
    show m.size ≤ 2 * m.size
    omega
  · omega

/-! ## The order of the heap -/

section Order

variable [IsTrans κ (· < ·)] [Std.Asymm (α := κ) (· < ·)] [Std.Trichotomous (α := κ) (· < ·)]

omit [DecidableEq κ] [IsTrans κ (· < ·)] [Std.Asymm (α := κ) (· < ·)] in
/-- A key that another does not precede is below it or equal to it. -/
theorem lt_or_eq_of_not_lt {a b : κ} (h : ¬ b < a) : a < b ∨ a = b := by
  by_cases hab : a < b
  · exact .inl hab
  · exact .inr (Std.Trichotomous.trichotomous (r := (· < ·)) a b hab h)

instance : Std.Total (le (κ := κ)) where
  total a b := by
    rcases Nat.lt_trichotomy a.1 b.1 with h | h | h
    · exact .inl (.inl h)
    · by_cases hlt : b.2 < a.2
      · exact .inr (.inr ⟨h.symm, Std.Asymm.asymm (r := (· < ·)) _ _ hlt⟩)
      · exact .inl (.inr ⟨h, hlt⟩)
    · exact .inr (.inl h)

instance : IsTrans (Nat × κ) le where
  trans a b c hab hbc := by
    rcases hab with hab | ⟨hab, hk⟩ <;> rcases hbc with hbc | ⟨hbc, hk'⟩
    · exact .inl (hab.trans hbc)
    · exact .inl (hbc ▸ hab)
    · exact .inl (hab ▸ hbc)
    · refine .inr ⟨hab.trans hbc, fun hca => ?_⟩
      rcases lt_or_eq_of_not_lt hk with hlt | heq
      · exact hk' (IsTrans.trans (r := (· < ·)) _ _ _ hca hlt)
      · exact hk' (heq ▸ hca)

instance : Std.Antisymm (le (κ := κ)) where
  antisymm a b hab hba := by
    rcases hab with hab | ⟨hab, hk⟩ <;> rcases hba with hba | ⟨hba, hk'⟩
    · omega
    · omega
    · omega
    · exact Prod.ext hab (Std.Trichotomous.trichotomous (r := (· < ·)) _ _ hk' hk)

omit [DecidableEq κ] in
theorem pairwise_push (m : Assoc κ β) (k : κ) (now : Nat) (h : heap.Pairwise le) :
    (push stamp m heap k now).Pairwise le := by
  simp only [TouchHeap.push]
  split
  · exact pairwise_insertionSort _ _
  · exact h.orderedInsert _ _

/-! ## Scanning for the least stamp -/

/-- The entry with the least stamp, and of those the least key. -/
def least (stamp : β → Nat) (m : Assoc κ β) : Option κ :=
  ((m.entries.map fun e => (stamp e.2, e.1)).insertionSort le).head?.map Prod.snd

/-- Drops the entry with the least stamp, `n` times. -/
def dropLeast (stamp : β → Nat) : Nat → Assoc κ β → Assoc κ β
  | 0, m => m
  | n + 1, m => (least stamp m).elim m fun k => dropLeast stamp n (m.erase k)

/-- A current touch at the front of the heap is that of the least entry. -/
theorem Covers.least_eq {t : Nat × κ} (h : Covers stamp (t :: heap) m)
    (hsorted : (t :: heap).Pairwise le) (hcur : (m.lookup t.2).any fun b => stamp b == t.1) :
    least stamp m = some t.2 := by
  obtain ⟨b, hb, hstamp⟩ := (Option.any_eq_true _ _).mp hcur
  rw [beq_iff_eq] at hstamp
  have hlive : t ∈ (m.entries.map fun e => (stamp e.2, e.1)).insertionSort le := by
    rw [mem_insertionSort, mem_map]
    exact ⟨⟨t.2, b⟩, Assoc.mem_entries_iff.mpr hb, Prod.ext hstamp rfl⟩
  have hpairs := pairwise_insertionSort le (m.entries.map fun e => (stamp e.2, e.1))
  rw [least]
  generalize hscan : (m.entries.map fun e => (stamp e.2, e.1)).insertionSort le = scan at *
  cases scan with
  | nil => cases hlive
  | cons first rest =>
    -- each of the two touches precedes the other
    have hfirst : first ∈ t :: heap := by
      have hmem : first ∈ (m.entries.map fun e => (stamp e.2, e.1)).insertionSort le :=
        hscan ▸ mem_cons_self
      rw [mem_insertionSort, mem_map] at hmem
      obtain ⟨e, he, rfl⟩ := hmem
      exact h e.1 e.2 (Assoc.mem_entries_iff.mp he)
    have hle : first = t ∨ le first t := (mem_cons.mp hlive).imp Eq.symm
      (rel_of_pairwise_cons hpairs)
    have hge : first = t ∨ le t first := (mem_cons.mp hfirst).imp_right
      (rel_of_pairwise_cons hsorted)
    have heq : first = t := by
      rcases hle with heq | hle
      · exact heq
      · exact hge.elim id fun hge => Std.Antisymm.antisymm _ _ hle hge
    rw [heq]
    rfl

/-- Popping a sorted heap that covers the map drops the entries a scan would drop. -/
theorem evict_eq_dropLeast (h : Covers stamp heap m) (hsorted : heap.Pairwise le)
    (hcap : 0 < cap) :
    (evict stamp cap heap m).1 = dropLeast stamp (m.size + 1 - cap) m := by
  induction heap generalizing m with
  | nil =>
    have hlt := h.size_evict_lt hcap
    rw [show m.size + 1 - cap = 0 by exact Nat.sub_eq_zero_of_le hlt]
    rfl
  | cons t heap ih =>
    unfold TouchHeap.evict
    split
    · rename_i hlt
      rw [Nat.sub_eq_zero_of_le hlt]
      rfl
    · rename_i hge
      split_ifs with hcur
      · obtain ⟨b, hb, -⟩ := (Option.any_eq_true _ _).mp hcur
        have hsize := Assoc.size_erase_of_lookup_some hb
        rw [ih h.erase_tail (List.Pairwise.of_cons hsorted),
          show m.size + 1 - cap = (m.size - cap) + 1 by omega, dropLeast,
          h.least_eq hsorted hcur]
        show _ = dropLeast stamp (m.size - cap) (m.erase t.2)
        rw [show Assoc.size (AList.erase t.2 m) + 1 - cap = m.size - cap by omega]
      · exact ih (h.tail hcur) (List.Pairwise.of_cons hsorted)

/-! ## A heap that serves its map -/

/-- The heap is sorted and holds the current touch of every entry. -/
structure Tracks (stamp : β → Nat) (heap : List (Nat × κ)) (m : Assoc κ β) : Prop where
  covers : Covers stamp heap m
  sorted : heap.Pairwise le

omit [IsTrans κ (· < ·)] [Std.Asymm (α := κ) (· < ·)] [Std.Trichotomous (α := κ) (· < ·)]
  [DecidableLT κ] in
theorem Tracks.evict (h : Tracks stamp heap m) (cap : Nat) :
    Tracks stamp (TouchHeap.evict stamp cap heap m).2 (TouchHeap.evict stamp cap heap m).1 :=
  ⟨h.covers.evict, h.sorted.sublist evict_suffix.sublist⟩

theorem Tracks.store {k : κ} {b : β} {now : Nat} (h : Tracks stamp heap m) (hb : stamp b = now) :
    Tracks stamp (TouchHeap.push stamp (AList.insert k b m) heap k now) (AList.insert k b m) :=
  ⟨h.covers.insert_push hb, pairwise_push _ _ _ h.sorted⟩

end Order

end TouchHeap
