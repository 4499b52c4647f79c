/-!
# Scanning a window

A loop that visits the positions of a window in order, carrying a state, until one visit stops it.
-/

/-- What one visit of a scan does. -/
inductive Turn (σ ρ : Type) where
  | next (s : σ)
  | stop (r : ρ) (s : σ)

/-- Visits `n` positions from `pos` on: why the scan stopped, where, and its state. -/
def scanWindow {σ ρ : Type} (visit : Nat → σ → Turn σ ρ) : Nat → Nat → σ → Option ρ × Nat × σ
  | 0, pos, s => (none, pos, s)
  | n + 1, pos, s =>
    match visit pos s with
    | .next s' => scanWindow visit n (pos + 1) s'
    | .stop r s' => (some r, pos, s')

/-- An invariant of the visits below `stop` holds where the scan ends, and what a stopping visit
establishes holds where it stopped. -/
theorem scanWindow_rule {σ ρ : Type} {visit : Nat → σ → Turn σ ρ} (P : Nat → σ → Prop)
    (Q : Option ρ × Nat × σ → Prop) (stop : Nat)
    (hnext : ∀ pos s s', pos < stop → P pos s → visit pos s = .next s' → P (pos + 1) s')
    (hstop : ∀ pos s r s', pos < stop → P pos s → visit pos s = .stop r s' → Q (some r, pos, s'))
    (hend : ∀ pos s, P pos s → Q (none, pos, s)) (n pos : Nat) (s : σ) (hn : pos + n ≤ stop)
    (h : P pos s) : Q (scanWindow visit n pos s) := by
  induction n generalizing pos s with
  | zero => exact hend pos s h
  | succ n ih =>
    rw [scanWindow]
    cases hv : visit pos s with
    | next s' => exact ih (pos + 1) s' (by omega) (hnext pos s s' (by omega) h hv)
    | stop r s' => exact hstop pos s r s' (by omega) h hv
