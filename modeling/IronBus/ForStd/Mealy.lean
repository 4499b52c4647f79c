import Mathlib

/-!
# Machines with outputs

A deterministic machine answers each input with an output and moves to a next state. A run over a
list of inputs leaves a trace of events: the state an input met, the input, and the answer.
-/

/-- A machine over states `σ` that answers inputs `ι` with outputs `ο`. -/
structure Mealy (σ ι ο : Type) where
  step : σ → ι → ο × σ

namespace Mealy

variable {σ ι ο : Type} (m : Mealy σ ι ο)

/-- One step of a run: the state it met, its input and its output. -/
structure Event (σ ι ο : Type) where
  before : σ
  input : ι
  output : ο

/-- The event of an input in a state. -/
def event (s : σ) (i : ι) : Event σ ι ο := ⟨s, i, (m.step s i).1⟩

/-- The state after a list of inputs. -/
def run (m : Mealy σ ι ο) : σ → List ι → σ
  | s, [] => s
  | s, i :: is => run m (m.step s i).2 is

/-- The events of a run, oldest first. -/
def trace (m : Mealy σ ι ο) : σ → List ι → List (Event σ ι ο)
  | _, [] => []
  | s, i :: is => m.event s i :: trace m (m.step s i).2 is

@[simp] theorem run_nil (s : σ) : m.run s [] = s := rfl

@[simp] theorem run_cons (s : σ) (i : ι) (is : List ι) :
    m.run s (i :: is) = m.run (m.step s i).2 is := rfl

@[simp] theorem trace_nil (s : σ) : m.trace s [] = [] := rfl

@[simp] theorem trace_cons (s : σ) (i : ι) (is : List ι) :
    m.trace s (i :: is) = m.event s i :: m.trace (m.step s i).2 is := rfl

theorem run_append (s : σ) (is js : List ι) : m.run s (is ++ js) = m.run (m.run s is) js := by
  induction is generalizing s with
  | nil => rfl
  | cons i is ih => exact ih _

variable {m}

/-- What every step keeps, a run keeps. -/
theorem run_inv {I : σ → Prop} (hstep : ∀ s i, I s → I (m.step s i).2) {s : σ} (h : I s)
    (is : List ι) : I (m.run s is) := by
  induction is generalizing s with
  | nil => exact h
  | cons i is ih => exact ih (hstep s i h)

/-- An event of a trace happened after some prefix of the inputs. -/
theorem mem_trace {s : σ} {is : List ι} {e : Event σ ι ο} :
    e ∈ m.trace s is ↔ ∃ pre i post, is = pre ++ i :: post ∧ e = m.event (m.run s pre) i := by
  induction is generalizing s with
  | nil => simp
  | cons i is ih =>
    rw [trace_cons, List.mem_cons, ih]
    constructor
    · rintro (rfl | ⟨pre, j, post, rfl, rfl⟩)
      · exact ⟨[], i, is, rfl, rfl⟩
      · exact ⟨i :: pre, j, post, rfl, rfl⟩
    · rintro ⟨pre, j, post, heq, rfl⟩
      cases pre with
      | nil =>
        obtain ⟨rfl, rfl⟩ := List.cons.inj heq
        exact .inl rfl
      | cons k pre =>
        obtain ⟨rfl, rfl⟩ := List.cons.inj heq
        exact .inr ⟨pre, j, post, rfl, rfl⟩

section Pairwise

variable {I : σ → Prop} {K : Event σ ι ο → σ → Prop}

/-- What an event establishes and every step keeps holds in every later state. -/
theorem after_run (hstep : ∀ s i, I s → I (m.step s i).2)
    (hkeep : ∀ e s i, I s → K e s → K e (m.step s i).2) {e : Event σ ι ο} {s : σ}
    (h : I s) (he : K e s) (is : List ι) : K e (m.run s is) :=
  (run_inv (I := fun s => I s ∧ K e s) (fun s i hs => ⟨hstep s i hs.1, hkeep e s i hs.1 hs.2⟩)
    ⟨h, he⟩ is).2

/-- A relation between an event and every later one. -/
theorem pairwise_trace {R : Event σ ι ο → Event σ ι ο → Prop}
    (hstep : ∀ s i, I s → I (m.step s i).2)
    (hstart : ∀ s i, I s → K (m.event s i) (m.step s i).2)
    (hkeep : ∀ e s i, I s → K e s → K e (m.step s i).2)
    (hR : ∀ e s i, I s → K e s → R e (m.event s i)) {s : σ} (h : I s) (is : List ι) :
    (m.trace s is).Pairwise R := by
  induction is generalizing s with
  | nil => exact .nil
  | cons i is ih =>
    refine .cons (fun e' he' => ?_) (ih (hstep s i h))
    obtain ⟨pre, j, post, -, rfl⟩ := mem_trace.mp he'
    refine hR _ _ j (run_inv hstep (hstep s i h) pre) ?_
    exact after_run hstep hkeep (hstep s i h) (hstart s i h) pre

end Pairwise

end Mealy
