import Mathlib

/-!
# Append-only logs with a durable front part

A log takes records at its end. A barrier makes everything it holds durable; a crash keeps what is
durable and any front part of the rest. A log whose barrier failed is frozen until it is opened
again. What the storage does with a call is an input of the call.
-/

/-- The records of a log, and how many of them a successful barrier has covered. -/
structure RecordLog (α : Type) where
  records : List α
  durable : Nat
  /-- A barrier failed: the log takes nothing more. -/
  frozen : Bool
  durable_le : durable ≤ records.length

/-- How an append fails. -/
inductive AppendFault where
  /-- Nothing is written and the log goes on. -/
  | refuse
  /-- Nothing is written and the log is frozen. -/
  | freeze
  deriving DecidableEq

/-- What the storage does with one append. -/
structure AppendIo where
  /-- The append starts a new segment, which makes everything before it durable. -/
  rolls : Bool
  fault : Option AppendFault

def AppendIo.ok : AppendIo := ⟨false, none⟩

namespace RecordLog

variable {α : Type}

def empty : RecordLog α := ⟨[], 0, false, Nat.le_refl 0⟩

/-- The position the next record gets. -/
def nextOffset (l : RecordLog α) : Nat := l.records.length

/-- A barrier that succeeds. -/
def settle (l : RecordLog α) : RecordLog α :=
  { l with durable := l.records.length, durable_le := Nat.le_refl _ }

/-- The log with one more record. -/
def push (l : RecordLog α) (a : α) : RecordLog α :=
  { l with
    records := l.records ++ [a]
    durable_le := l.durable_le.trans (by simp) }

/-- Appends a record; whether it succeeded. -/
def append (l : RecordLog α) (io : AppendIo) (a : α) : Bool × RecordLog α :=
  if l.frozen then (false, l)
  else
    let l := if io.rolls then l.settle else l
    match io.fault with
    | some .refuse => (false, l)
    | some .freeze => (false, { l with frozen := true })
    | none => (true, l.push a)

/-- Appends records one after the other, up to the first failure. -/
def appendAll (l : RecordLog α) : List AppendIo → List α → Bool × RecordLog α
  | _, [] => (true, l)
  | ios, a :: as =>
    match l.append (ios.head?.getD .ok) a with
    | (false, l) => (false, l)
    | (true, l) => l.appendAll ios.tail as

/-- Closes the current segment, which makes everything in the log durable; whether it succeeded.
A failure may come after the segment was closed. -/
def sealActive (l : RecordLog α) (io : AppendIo) : Bool × RecordLog α :=
  if l.frozen then (false, l)
  else
    match io.fault with
    | none => (true, l.settle)
    | some fault =>
      let l := if io.rolls then l.settle else l
      (false, { l with frozen := fault = .freeze })

/-- The barrier; whether it succeeded. -/
def sync (l : RecordLog α) (fails : Bool) : Bool × RecordLog α :=
  if l.frozen then (false, l)
  else if fails then (false, { l with frozen := true })
  else (true, l.settle)

/-- Gives up records at the front. -/
def reap (l : RecordLog α) (n : Nat) : RecordLog α where
  records := l.records.drop n
  durable := l.durable - n
  frozen := l.frozen
  durable_le := by
    have := l.durable_le
    rw [List.length_drop]
    omega

/-- What opening the log finds after a crash that let `survivors` records through. -/
def crash (l : RecordLog α) (survivors : Nat) : RecordLog α where
  records := l.records.take (max l.durable survivors)
  durable := l.durable
  frozen := false
  durable_le := by
    have := l.durable_le
    rw [List.length_take]
    omega

/-- A later state of the log. -/
structure Extends (l l' : RecordLog α) : Prop where
  records : l.records <+: l'.records
  durable : l.durable ≤ l'.durable

namespace Extends

variable {l l' l'' : RecordLog α}

theorem refl (l : RecordLog α) : l.Extends l := ⟨List.prefix_rfl, Nat.le_refl _⟩

theorem trans (h : l.Extends l') (h' : l'.Extends l'') : l.Extends l'' :=
  ⟨h.records.trans h'.records, h.durable.trans h'.durable⟩

end Extends

variable {l : RecordLog α} {io : AppendIo}

/-- An append adds its record if it succeeds, and nothing otherwise. -/
theorem append_records (l : RecordLog α) (io : AppendIo) (a : α) :
    (l.append io a).2.records = (if (l.append io a).1 then l.records ++ [a] else l.records)
      ∧ l.durable ≤ (l.append io a).2.durable := by
  unfold append
  split
  · exact ⟨rfl, Nat.le_refl _⟩
  · have hroll : (if io.rolls then l.settle else l).records = l.records
        ∧ l.durable ≤ (if io.rolls then l.settle else l).durable := by
      split
      · exact ⟨rfl, l.durable_le⟩
      · exact ⟨rfl, Nat.le_refl _⟩
    rcases io.fault with _ | _ | _
    · exact ⟨by simp [push, hroll.1], hroll.2⟩
    · exact ⟨by simp [hroll.1], hroll.2⟩
    · exact ⟨by simp [hroll.1], hroll.2⟩

/-- A log that is not frozen after an append was not frozen before it, and if it did not take the
record, it refused it. -/
theorem append_unfrozen {a : α} (h : (l.append io a).2.frozen = false) :
    l.frozen = false ∧ ((l.append io a).1 = false → io.fault = some .refuse) := by
  cases hfrozen : l.frozen with
  | true => simp [append, hfrozen] at h
  | false =>
    refine ⟨rfl, fun hres => ?_⟩
    rcases hfault : io.fault with _ | _ | _
    · simp [append, hfrozen, hfault] at hres
    · rfl
    · simp [append, hfrozen, hfault] at h

theorem append_ok {a : α} (h : (l.append io a).1 = true) :
    (l.append io a).2.frozen = false := by
  cases hfrozen : l.frozen with
  | true => simp [append, hfrozen] at h
  | false =>
    rcases hfault : io.fault with _ | _ | _
    · cases hrolls : io.rolls <;> simp [append, hfrozen, hfault, hrolls, push, settle]
    · simp [append, hfrozen, hfault] at h
    · simp [append, hfrozen, hfault] at h

/-- An append that starts no segment makes nothing durable. -/
theorem append_durable {a : α} (h : io.rolls = false) : (l.append io a).2.durable = l.durable := by
  unfold append
  split
  · rfl
  · rw [if_neg (by simp [h])]
    rcases io.fault with _ | _ | _ <;> rfl

theorem append_extends (l : RecordLog α) (io : AppendIo) (a : α) :
    l.Extends (l.append io a).2 := by
  obtain ⟨hrec, hdur⟩ := l.append_records io a
  refine ⟨?_, hdur⟩
  rw [hrec]
  split
  · exact List.prefix_append _ _
  · exact List.prefix_rfl

/-- A run of appends adds a front part of its records, and all of them if it succeeds. -/
theorem appendAll_spec (l : RecordLog α) (ios : List AppendIo) (as : List α) :
    ∃ k, (l.appendAll ios as).2.records = l.records ++ as.take k
      ∧ l.durable ≤ (l.appendAll ios as).2.durable
      ∧ ((l.appendAll ios as).1 = true → as.take k = as) := by
  induction as generalizing l ios with
  | nil => exact ⟨0, by simp [appendAll], Nat.le_refl _, fun _ => rfl⟩
  | cons a as ih =>
    obtain ⟨hrec, hdur⟩ := l.append_records (ios.head?.getD .ok) a
    rw [appendAll]
    rcases hres : l.append (ios.head?.getD .ok) a with ⟨_ | _, l'⟩
    · rw [hres] at hrec hdur
      exact ⟨0, by simpa using hrec, hdur, nofun⟩
    · rw [hres] at hrec hdur
      obtain ⟨k, hrec', hdur', hall⟩ := ih l' ios.tail
      refine ⟨k + 1, ?_, hdur.trans hdur', fun h => ?_⟩
      · simp only at hrec' ⊢
        rw [hrec', hrec]
        simp
      · rw [List.take_succ_cons, hall h]

theorem append_of_calm {a : α} (hfrozen : l.frozen = false) (hcalm : io.fault = none) :
    (l.append io a).1 = true := by
  simp [append, hfrozen, hcalm]

/-- A run of appends that succeeds leaves a log that is not frozen as it is. -/
theorem appendAll_unfrozen {ios : List AppendIo} {as : List α} (hfrozen : l.frozen = false)
    (h : (l.appendAll ios as).1 = true) : (l.appendAll ios as).2.frozen = false := by
  induction as generalizing l ios with
  | nil => exact hfrozen
  | cons a as ih =>
    have hok := @append_ok _ l (ios.head?.getD .ok) a
    rw [appendAll] at h ⊢
    rcases hres : l.append (ios.head?.getD .ok) a with ⟨_ | _, l'⟩ <;> rw [hres] at h hok
    · cases h
    · exact ih (hok rfl) h

/-- A run of appends fails only where the storage does. -/
theorem appendAll_ok {ios : List AppendIo} {as : List α} (hfrozen : l.frozen = false)
    (hcalm : ∀ io ∈ ios, io.fault = none) : (l.appendAll ios as).1 = true := by
  induction as generalizing l ios with
  | nil => rfl
  | cons a as ih =>
    have hhead : (ios.head?.getD .ok).fault = none := by
      cases ios with
      | nil => rfl
      | cons io ios => exact hcalm io (by simp)
    have hok := append_of_calm (a := a) hfrozen hhead
    have hunfrozen := append_ok hok
    rw [appendAll]
    rcases hres : l.append (ios.head?.getD .ok) a with ⟨_ | _, l'⟩ <;> rw [hres] at hok hunfrozen
    · cases hok
    · exact ih hunfrozen fun io hio => hcalm io (List.mem_of_mem_tail hio)

theorem appendAll_of_frozen {ios : List AppendIo} {as : List α} (hfrozen : l.frozen = true) :
    (l.appendAll ios as).2 = l := by
  cases as with
  | nil => rfl
  | cons a as => simp [appendAll, append, hfrozen]

/-- A run of appends of which only the first may fail has added nothing when it fails. -/
theorem appendAll_failed {ios : List AppendIo} {as : List α}
    (hcalm : ∀ io ∈ ios.tail, io.fault = none) (h : (l.appendAll ios as).1 = false) :
    (l.appendAll ios as).2.records = l.records := by
  cases as with
  | nil => cases h
  | cons a as =>
    have hrec := (l.append_records (ios.head?.getD .ok) a).1
    have hok := @append_ok _ l (ios.head?.getD .ok) a
    rw [appendAll] at h ⊢
    rcases hres : l.append (ios.head?.getD .ok) a with ⟨_ | _, l'⟩ <;> rw [hres] at hrec hok h
    · simpa using hrec
    · rw [appendAll_ok (hok rfl) hcalm] at h
      cases h

theorem sealActive_spec (l : RecordLog α) (io : AppendIo) :
    (l.sealActive io).2.records = l.records ∧ l.durable ≤ (l.sealActive io).2.durable := by
  unfold sealActive
  split
  · exact ⟨rfl, Nat.le_refl _⟩
  · rcases io.fault with _ | fault
    · exact ⟨rfl, l.durable_le⟩
    · cases io.rolls
      · exact ⟨rfl, Nat.le_refl _⟩
      · exact ⟨rfl, l.durable_le⟩

theorem sealActive_durable (l : RecordLog α) (io : AppendIo) :
    (l.sealActive io).2.durable = l.durable
      ∨ (l.sealActive io).2.durable = l.records.length ∧ l.frozen = false := by
  unfold sealActive
  split
  · exact .inl rfl
  · next hfrozen =>
    rcases io.fault with _ | fault
    · exact .inr ⟨rfl, Bool.eq_false_iff.mpr hfrozen⟩
    · cases io.rolls
      · exact .inl rfl
      · exact .inr ⟨rfl, Bool.eq_false_iff.mpr hfrozen⟩

theorem sealActive_unfrozen (h : (l.sealActive io).2.frozen = false) : l.frozen = false := by
  cases hfrozen : l.frozen with
  | true => simp [sealActive, hfrozen] at h
  | false => rfl

/-- The barrier keeps the records, and covers all of them if it succeeds. -/
theorem sync_spec (l : RecordLog α) (fails : Bool) :
    (l.sync fails).2.records = l.records ∧ l.durable ≤ (l.sync fails).2.durable
      ∧ ((l.sync fails).1 = true → (l.sync fails).2.durable = l.records.length) := by
  unfold sync
  split
  · exact ⟨rfl, Nat.le_refl _, nofun⟩
  · split
    · exact ⟨rfl, Nat.le_refl _, nofun⟩
    · exact ⟨rfl, l.durable_le, fun _ => rfl⟩

theorem sync_durable (l : RecordLog α) (fails : Bool) :
    (l.sync fails).2.durable = l.durable
      ∨ (l.sync fails).2.durable = l.records.length ∧ l.frozen = false := by
  unfold sync
  split
  · exact .inl rfl
  · next hfrozen =>
    split
    · exact .inl rfl
    · exact .inr ⟨rfl, Bool.eq_false_iff.mpr hfrozen⟩

theorem sync_unfrozen {fails : Bool} (h : (l.sync fails).2.frozen = false) :
    l.frozen = false := by
  cases hfrozen : l.frozen with
  | true => simp [sync, hfrozen] at h
  | false => rfl

theorem sync_ok {fails : Bool} (h : (l.sync fails).1 = true) :
    (l.sync fails).2.frozen = false := by
  cases hfrozen : l.frozen with
  | true => simp [sync, hfrozen] at h
  | false =>
    cases hfails : fails with
    | true => simp [sync, hfrozen, hfails] at h
    | false => simp [sync, hfrozen, settle]

theorem sync_extends (l : RecordLog α) (fails : Bool) : l.Extends (l.sync fails).2 := by
  obtain ⟨hrec, hdur, -⟩ := l.sync_spec fails
  exact ⟨hrec ▸ List.prefix_rfl, hdur⟩

/-- A crash keeps a front part that reaches at least as far as the barriers did. -/
theorem crash_spec (l : RecordLog α) (survivors : Nat) :
    (l.crash survivors).records <+: l.records ∧ (l.crash survivors).durable = l.durable :=
  ⟨List.take_prefix _ _, rfl⟩

end RecordLog
