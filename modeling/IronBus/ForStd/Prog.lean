import Mathlib

/-!
# Programs that can be interrupted

A program over a state `σ` either returns or fails, in a final state, and passes through a
trail of intermediate states: those in which a crash can find it. `Prog.wp` is the weakest
precondition with three postconditions, for a return, for a failure and for a crash; its rules
follow the structure of a program, so a specification is proved once per function and used at
every call.
-/

/-- What one run of a program did. -/
structure Prog.Run (σ ε α : Type) where
  /-- The value returned, or the error. -/
  out : Except ε α
  /-- The final state. -/
  st : σ
  /-- The states a crash can find, oldest first. -/
  trail : List σ

/-- A program over the state `σ` that fails with `ε` or returns `α`. -/
def Prog (σ ε α : Type) : Type := σ → Prog.Run σ ε α

namespace Prog

variable {σ τ ε α β : Type}

/-! ## Programs -/

/-- Returns without touching the state. -/
def ret (a : α) : Prog σ ε α := fun s => ⟨.ok a, s, []⟩

/-- Fails without touching the state. -/
def fail (e : ε) : Prog σ ε α := fun s => ⟨.error e, s, []⟩

/-- Runs `m` and then, if it returned, the continuation. -/
def andThen (m : Prog σ ε α) (f : α → Prog σ ε β) : Prog σ ε β := fun s =>
  match m s with
  | ⟨.error e, s', tr⟩ => ⟨.error e, s', tr⟩
  | ⟨.ok a, s', tr⟩ =>
    match f a s' with
    | ⟨out, s'', tr'⟩ => ⟨out, s'', tr ++ tr'⟩

instance : Monad (Prog σ ε) where
  pure := ret
  bind := andThen

/-- Reads from the state. -/
def gets (f : σ → α) : Prog σ ε α := fun s => ⟨.ok (f s), s, []⟩

/-- Changes volatile state: no crash can tell. -/
def modify (f : σ → σ) : Prog σ ε Unit := fun s => ⟨.ok (), f s, []⟩

/-- A primitive with an outcome and a new state that a crash can find. -/
def effect (f : σ → Except ε α × σ) : Prog σ ε α := fun s => ⟨(f s).1, (f s).2, [(f s).2]⟩

/-- Runs `m` and returns its outcome as a value: how a caller handles an error. -/
def attempt (m : Prog σ ε α) : Prog σ ε (Except ε α) := fun s =>
  ⟨.ok (m s).out, (m s).st, (m s).trail⟩

/-- Runs a program over a part of the state. -/
def zoom (get : τ → σ) (set : σ → τ → τ) (m : Prog σ ε α) : Prog τ ε α := fun t =>
  let r := m (get t)
  ⟨r.out, set r.st t, r.trail.map fun s => set s t⟩

/-! ## Weakest preconditions -/

/-- An outcome in a state: a value there satisfies `Q`, an error satisfies `E`. -/
def Ends (out : Except ε α) (s : σ) (Q : α → σ → Prop) (E : ε → σ → Prop) : Prop :=
  match out with
  | .ok a => Q a s
  | .error e => E e s

@[simp] theorem ends_ok {a : α} {s : σ} {Q : α → σ → Prop} {E : ε → σ → Prop} :
    Ends (.ok a) s Q E ↔ Q a s := Iff.rfl

@[simp] theorem ends_error {e : ε} {s : σ} {Q : α → σ → Prop} {E : ε → σ → Prop} :
    Ends (.error e) s Q E ↔ E e s := Iff.rfl

/-- `m`, run from `s`, returns into `Q` or fails into `E`, and is only ever interrupted in
`C`. -/
def wp (m : Prog σ ε α) (s : σ) (Q : α → σ → Prop) (E : ε → σ → Prop) (C : σ → Prop) : Prop :=
  Ends (m s).out (m s).st Q E ∧ ∀ t ∈ (m s).trail, C t

variable {m : Prog σ ε α} {s : σ} {Q Q' : α → σ → Prop} {E E' : ε → σ → Prop}
  {C C' : σ → Prop}

@[simp] theorem wp_ret {a : α} : wp (ret a) s Q E C ↔ Q a s := by
  simp [wp, ret]

@[simp] theorem wp_pure {a : α} : wp (pure a) s Q E C ↔ Q a s :=
  wp_ret

theorem wp_andThen {f : α → Prog σ ε β} {R : β → σ → Prop} :
    wp (andThen m f) s R E C ↔ wp m s (fun a t => wp (f a) t R E C) E C := by
  -- both sides split on how `m` ended; the trails concatenate
  rcases h : m s with ⟨out, s', tr⟩
  cases out with
  | error e => simp [wp, andThen, h]
  | ok a =>
    simp only [wp, andThen, h, List.mem_append]
    constructor
    · rintro ⟨hr, htr⟩
      exact ⟨⟨hr, fun t ht => htr t (.inr ht)⟩, fun t ht => htr t (.inl ht)⟩
    · rintro ⟨⟨hr, htr'⟩, htr⟩
      exact ⟨hr, fun t ht => ht.elim (htr t) (htr' t)⟩

@[simp] theorem wp_bind {f : α → Prog σ ε β} {R : β → σ → Prop} :
    wp (m >>= f) s R E C ↔ wp m s (fun a t => wp (f a) t R E C) E C :=
  wp_andThen

@[simp] theorem wp_gets {f : σ → α} : wp (gets f) s Q E C ↔ Q (f s) s := by
  simp [wp, gets]

@[simp] theorem wp_modify {f : σ → σ} {R : Unit → σ → Prop} :
    wp (modify f) s R E C ↔ R () (f s) := by
  simp [wp, modify]

theorem wp_effect {f : σ → Except ε α × σ} :
    wp (effect f) s Q E C ↔ Ends (f s).1 (f s).2 Q E ∧ C (f s).2 := by
  simp [wp, effect]

@[simp] theorem wp_fail {e : ε} : wp (fail e : Prog σ ε α) s Q E C ↔ E e s := by
  simp [wp, fail]

theorem wp_attempt {R : Except ε α → σ → Prop} :
    wp (attempt m) s R E C ↔ wp m s (fun a => R (.ok a)) (fun e => R (.error e)) C := by
  rcases hout : (m s).out with e | a <;> simp [wp, attempt, hout]

theorem wp_zoom {get : τ → σ} {set : σ → τ → τ} {t : τ} {R : α → τ → Prop} {F : ε → τ → Prop}
    {D : τ → Prop} : wp (zoom get set m) t R F D ↔
      wp m (get t) (fun a s => R a (set s t)) (fun e s => F e (set s t)) fun s => D (set s t) := by
  rcases hout : (m (get t)).out with e | a <;> simp [wp, zoom, hout]

theorem wp_ite {p : Prop} [Decidable p] {m' : Prog σ ε α} :
    wp (if p then m else m') s Q E C ↔ (p → wp m s Q E C) ∧ (¬ p → wp m' s Q E C) := by
  by_cases h : p <;> simp [h]

/-- The rule of consequence: how a specification is used at a call. -/
theorem wp_mono (h : wp m s Q E C) (hQ : ∀ a t, Q a t → Q' a t) (hE : ∀ e t, E e t → E' e t)
    (hC : ∀ t, C t → C' t) : wp m s Q' E' C' := by
  obtain ⟨hr, htr⟩ := h
  refine ⟨?_, fun t ht => hC t (htr t ht)⟩
  rcases hout : (m s).out with e | a <;> simp only [hout, ends_ok, ends_error] at hr ⊢
  · exact hE _ _ hr
  · exact hQ _ _ hr

theorem wp.imp (h : wp m s Q E C) (hQ : ∀ a t, Q a t → Q' a t) : wp m s Q' E C :=
  wp_mono h hQ (fun _ _ h => h) fun _ h => h

/-- `m`, run from `s`, returns into `Q`, and `I` holds where it fails or is interrupted. -/
abbrev Yields (m : Prog σ ε α) (s : σ) (Q : α → σ → Prop) (I : σ → Prop) : Prop :=
  wp m s Q (fun _ => I) I

/-- `m`, run from `s`, keeps `I`: where it ends and wherever it is interrupted. -/
abbrev Keeps (m : Prog σ ε α) (s : σ) (I : σ → Prop) : Prop := wp m s (fun _ => I) (fun _ => I) I

/-- What a specification says of a run that returned. -/
theorem wp.of_ok (h : wp m s Q E C) {a : α} (hout : (m s).out = .ok a) : Q a (m s).st := by
  have hr := h.1
  rwa [hout] at hr

/-- What a specification says of a run that failed. -/
theorem wp.of_error (h : wp m s Q E C) {e : ε} (hout : (m s).out = .error e) : E e (m s).st := by
  have hr := h.1
  rwa [hout] at hr

theorem keeps_effect {f : σ → Except ε α × σ} {I : σ → Prop} :
    Keeps (effect f) s I ↔ I (f s).2 := by
  rw [Keeps, wp_effect]
  cases (f s).1 <;> simp

theorem Keeps.st {I : σ → Prop} (h : Keeps m s I) : I (m s).st := by
  rcases hout : (m s).out with e | a
  · exact wp.of_error h hout
  · exact wp.of_ok h hout

end Prog
