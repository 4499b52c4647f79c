import IronBus.ForStd.List
import IronBus.ForStd.Mealy
import IronBus.Native.Lease

/-!
# Generations fence every older token

The generation counter only grows, and every lease's generation lies below it.

Key results:
- `step_moves`: a call keeps a lease's generation or draws a fresh one
- `past_run`: a generation once passed at an offset never comes back there
- `tokens_fence`: so the older of two tokens of an offset is fenced
-/

namespace IronBus

open NatMap LeaseTable

namespace LeaseTable

/-! ## The calls -/

/-- A call on a lease table. -/
inductive Call where
  | claim (offset now : UInt64)
  | ack (token : LeaseToken)
  | nack (token : LeaseToken) (now delayNanos : UInt64)
  | extend (token : LeaseToken) (now : UInt64)
  | deferRedelivery (offset now delayNanos : UInt64)
  | releaseBelow (upTo : UInt64)
  | shiftDeadlines (delta : UInt64)
  | expired (now : UInt64)
  deriving DecidableEq

/-- What a call answers. -/
inductive Answer where
  | claim (c : Claim)
  | ack (o : AckOutcome)
  | nack (o : NackOutcome)
  | extend (o : ExtendOutcome)
  | deferred (b : Bool)
  | done
  | expired (offsets : List Nat)
  deriving DecidableEq

/-- The table as a machine that answers calls. -/
def machine : Mealy LeaseTable Call Answer where
  step t
    | .claim offset now => ((t.claim offset.toNat now.toNat).map .claim id)
    | .ack token => (t.ack token).map .ack id
    | .nack token now delayNanos => (t.nack token now.toNat delayNanos.toNat).map .nack id
    | .extend token now => (t.extend token now.toNat).map .extend id
    | .deferRedelivery offset now delayNanos =>
      (t.deferRedelivery offset.toNat now.toNat delayNanos.toNat).map .deferred id
    | .releaseBelow upTo => (.done, t.releaseBelow upTo.toNat)
    | .shiftDeadlines delta => (.done, t.shiftDeadlines delta.toNat)
    | .expired now => (.expired (t.expired now.toNat), t)

abbrev Event := Mealy.Event LeaseTable Call Answer

/-- The token an event granted. -/
def granted (e : Event) : Option LeaseToken :=
  match e.output with
  | .claim (.granted token _) => some token
  | _ => none

/-- The event is a successful acknowledgement by the token. -/
def ackedBy (token : LeaseToken) (e : Event) : Bool :=
  e.input = .ack token && e.output = .ack .acked

/-- The tokens granted over a run, oldest first. -/
def grants (t : LeaseTable) (calls : List Call) : List LeaseToken :=
  (machine.trace t calls).filterMap granted

/-! ## What a call does to the generations -/

/-- Every lease's generation was drawn from the counter. -/
def Drawn (t : LeaseTable) : Prop :=
  ∀ o lease, t.leases.get o = some lease → lease.generation < t.nextGeneration

/-- The generation `g` cannot come back at the offset `o`. -/
def Past (o g : Nat) (t : LeaseTable) : Prop :=
  g < t.nextGeneration ∧ ∀ lease, t.leases.get o = some lease → g < lease.generation

/-- A lease keeps its generation or gets one that was not drawn before. -/
structure Moves (t t' : LeaseTable) : Prop where
  next_le : t.nextGeneration ≤ t'.nextGeneration
  lease : ∀ o lease', t'.leases.get o = some lease' →
    (∃ lease, t.leases.get o = some lease ∧ lease'.generation = lease.generation)
      ∨ (t.nextGeneration ≤ lease'.generation ∧ lease'.generation < t'.nextGeneration)

variable {t t' : LeaseTable} {o : Nat} {lease : Lease} {token : LeaseToken}

theorem Moves.refl (t : LeaseTable) : Moves t t :=
  ⟨le_rfl, fun _ lease' h => .inl ⟨lease', h, rfl⟩⟩

theorem Moves.trans {t'' : LeaseTable} (h : Moves t t') (h' : Moves t' t'') : Moves t t'' := by
  refine ⟨h.next_le.trans h'.next_le, fun o lease'' hget => ?_⟩
  have hle := h'.next_le
  have hle' := h.next_le
  rcases h'.lease o lease'' hget with ⟨lease', hget', hg⟩ | ⟨hlo, hhi⟩
  · rcases h.lease o lease' hget' with ⟨lease, hget₀, hg'⟩ | ⟨hlo, hhi⟩
    · exact .inl ⟨lease, hget₀, hg.trans hg'⟩
    · exact .inr ⟨by omega, by omega⟩
  · exact .inr ⟨by omega, hhi⟩

/-- Replacing one lease by one that keeps its generation. -/
theorem Moves.keep {lease' : Lease} (h : t.leases.get o = some lease)
    (hg : lease'.generation = lease.generation) :
    Moves t { t with leases := t.leases.insert o lease' } := by
  refine ⟨le_rfl, fun o' l hl => .inl ?_⟩
  by_cases ho : o' = o
  · subst ho
    rw [get_insert_self] at hl
    obtain rfl := Option.some.inj hl
    exact ⟨lease, h, hg⟩
  · rw [get_insert_of_ne ho] at hl
    exact ⟨l, hl, rfl⟩

/-- Putting down a lease with the next generation. -/
theorem Moves.draw (hnext : t'.nextGeneration = t.nextGeneration + 1)
    (hleases : t'.leases = t.leases.insert o lease) (hg : lease.generation = t.nextGeneration) :
    Moves t t' := by
  refine ⟨by omega, fun o' l hl => ?_⟩
  rw [hleases] at hl
  by_cases ho : o' = o
  · subst ho
    rw [get_insert_self] at hl
    obtain rfl := Option.some.inj hl
    exact .inr ⟨by omega, by omega⟩
  · rw [get_insert_of_ne ho] at hl
    exact .inl ⟨l, hl, rfl⟩

theorem owned_eq_some (h : t.owned token = some lease) :
    t.leases.get token.offset = some lease ∧ lease.generation = token.generation := by
  obtain ⟨hget, hg⟩ := Option.filter_eq_some_iff.mp h
  exact ⟨hget, beq_iff_eq.mp hg⟩

theorem checkedAdd_eq_some {a b c : Nat} (h : checkedAdd a b = some c) : c = a + b := by
  unfold checkedAdd at h
  split at h
  · exact (Option.some.inj h).symm
  · cases h

/-- A grant draws the next generation for its offset. -/
theorem grant_spec (t : LeaseTable) (offset now next : Nat) :
    ∃ lease deliveries, (t.grant offset now next).1 = .granted ⟨offset, t.nextGeneration⟩ deliveries
      ∧ (t.grant offset now next).2.nextGeneration = next
      ∧ (t.grant offset now next).2.leases = t.leases.insert offset lease
      ∧ lease.generation = t.nextGeneration := by
  unfold grant
  cases t.leases.get offset with
  | some lease => exact ⟨_, _, rfl, rfl, rfl, rfl⟩
  | none => exact ⟨_, _, rfl, rfl, rfl, rfl⟩

/-- A claim leaves the table alone or draws the next generation for its offset. -/
theorem claim_cases (t : LeaseTable) (offset now : Nat) :
    ((t.claim offset now).2 = t ∧ ∀ token n, (t.claim offset now).1 ≠ .granted token n)
      ∨ ∃ lease deliveries, (t.claim offset now).1 = .granted ⟨offset, t.nextGeneration⟩ deliveries
        ∧ (t.claim offset now).2.nextGeneration = t.nextGeneration + 1
        ∧ (t.claim offset now).2.leases = t.leases.insert offset lease
        ∧ lease.generation = t.nextGeneration := by
  unfold claim
  split
  · exact .inl ⟨rfl, fun _ _ h => nomatch h⟩
  · cases hnext : checkedAdd t.nextGeneration 1 with
    | none => exact .inl ⟨rfl, fun _ _ h => nomatch h⟩
    | some next =>
      rw [← checkedAdd_eq_some hnext]
      exact .inr (grant_spec t offset now next)

theorem claim_moves (t : LeaseTable) (offset now : Nat) : Moves t (t.claim offset now).2 := by
  rcases claim_cases t offset now with ⟨heq, -⟩ | ⟨lease, n, -, hnext, hleases, hg⟩
  · rw [heq]
    exact .refl t
  · exact .draw hnext hleases hg

/-- No offset gets a lease that had none. -/
structure Settles (t t' : LeaseTable) : Prop extends Moves t t' where
  free : ∀ o, t.leases.get o = none → t'.leases.get o = none

theorem ack_settles (t : LeaseTable) (token : LeaseToken) : Settles t (t.ack token).2 := by
  unfold ack
  cases t.owned token with
  | none => exact ⟨.refl t, fun _ hget => hget⟩
  | some lease =>
    have hget (o : Nat) : (t.leases.erase token.offset).get o = none
        ∨ (t.leases.erase token.offset).get o = t.leases.get o := by
      by_cases ho : o = token.offset
      · exact .inl (ho ▸ get_erase_self _ _)
      · exact .inr (get_erase_of_ne ho)
    refine ⟨⟨le_rfl, fun o l hl => .inl ⟨l, ?_, rfl⟩⟩, fun o hnone => ?_⟩
    · exact (hget o).elim (fun h => nomatch h.symm.trans hl) fun h => h.symm.trans hl
    · exact (hget o).elim id fun h => h.trans hnone

/-- Nothing happens, or a lease is replaced by one with the same count. -/
inductive Relet (t : LeaseTable) : LeaseTable → Prop
  | same : Relet t t
  | lease {o next : Nat} {lease lease' : Lease} (hget : t.leases.get o = some lease)
    (hd : lease'.deliveries = lease.deliveries)
    (hmoves : Moves t { t with leases := t.leases.insert o lease', nextGeneration := next }) :
    Relet t { t with leases := t.leases.insert o lease', nextGeneration := next }

theorem Relet.settles (h : t.Relet t') : Settles t t' := by
  cases h with
  | same => exact ⟨.refl t, fun _ hget => hget⟩
  | @lease o _ _ _ hget _ hmoves =>
    refine ⟨hmoves, fun o' hnone => ?_⟩
    have hne : o' ≠ o := by
      rintro rfl
      rw [hget] at hnone
      cases hnone
    exact (get_insert_of_ne hne).trans hnone

theorem extend_relet (t : LeaseTable) (token : LeaseToken) (now : Nat) :
    t.Relet (t.extend token now).2 := by
  unfold extend
  cases howned : t.owned token with
  | none => exact .same
  | some lease =>
    simp only
    split
    · exact .same
    · exact .lease (owned_eq_some howned).1 rfl (.keep (owned_eq_some howned).1 rfl)

theorem nack_relet (t : LeaseTable) (token : LeaseToken) (now delayNanos : Nat) :
    t.Relet (t.nack token now delayNanos).2 := by
  unfold nack
  cases howned : t.owned token with
  | none => exact .same
  | some lease =>
    cases hnext : checkedAdd t.nextGeneration 1 with
    | none => exact .same
    | some next =>
      exact .lease (owned_eq_some howned).1 rfl (.draw (checkedAdd_eq_some hnext) rfl rfl)

theorem deferRedelivery_relet (t : LeaseTable) (offset now delayNanos : Nat) :
    t.Relet (t.deferRedelivery offset now delayNanos).2 := by
  unfold deferRedelivery
  cases hget : t.leases.get offset with
  | none => exact .same
  | some lease =>
    simp only
    split
    · exact .lease hget rfl (.keep hget rfl)
    · exact .same

theorem releaseBelow_moves (t : LeaseTable) (upTo : Nat) : Moves t (t.releaseBelow upTo) := by
  refine ⟨le_rfl, fun o l hl => .inl ⟨l, ?_, rfl⟩⟩
  simp only [releaseBelow, get_filterKeys] at hl
  split at hl
  · exact hl
  · cases hl

theorem shiftDeadlines_settles (t : LeaseTable) (delta : Nat) :
    Settles t (t.shiftDeadlines delta) := by
  refine ⟨⟨le_rfl, fun o l hl => .inl ?_⟩, fun o hnone => ?_⟩
  · simp only [shiftDeadlines, get_map, Option.map_eq_some_iff] at hl
    obtain ⟨lease, hget, rfl⟩ := hl
    exact ⟨lease, hget, rfl⟩
  · simp only [shiftDeadlines, get_map, hnone, Option.map_none]

/-- What any call can do to the generations. -/
theorem step_moves (t : LeaseTable) (call : Call) : Moves t (machine.step t call).2 := by
  cases call with
  | claim offset now => exact claim_moves t _ _
  | ack token => exact (ack_settles t token).toMoves
  | nack token now delayNanos => exact (nack_relet t token _ _).settles.toMoves
  | extend token now => exact (extend_relet t token _).settles.toMoves
  | deferRedelivery offset now delayNanos => exact (deferRedelivery_relet t _ _ _).settles.toMoves
  | releaseBelow upTo => exact releaseBelow_moves t _
  | shiftDeadlines delta => exact (shiftDeadlines_settles t _).toMoves
  | expired now => exact .refl t

theorem Moves.drawn (h : Moves t t') (hd : t.Drawn) : t'.Drawn := by
  intro o lease hget
  have hle := h.next_le
  rcases h.lease o lease hget with ⟨lease₀, hget₀, hg⟩ | ⟨-, hlt⟩
  · have := hd o lease₀ hget₀
    omega
  · exact hlt

theorem Moves.past (h : Moves t t') {g : Nat} (hp : Past o g t) :
    Past o g t' := by
  refine ⟨lt_of_lt_of_le hp.1 h.next_le, fun lease hget => ?_⟩
  rcases h.lease o lease hget with ⟨lease₀, hget₀, hg⟩ | ⟨hle, -⟩
  · rw [hg]
    exact hp.2 lease₀ hget₀
  · exact lt_of_lt_of_le hp.1 hle

theorem past_run {g : Nat} (h : Past o g t) (calls : List Call) :
    Past o g (machine.run t calls) :=
  Mealy.run_inv (fun t call hp => (step_moves t call).past hp) h calls

/-- A token whose generation is past owns nothing. -/
theorem Past.owned (h : Past token.offset token.generation t) :
    t.owned token = none := by
  cases howned : t.owned token with
  | none => rfl
  | some lease =>
    obtain ⟨hget, hg⟩ := owned_eq_some howned
    have := h.2 lease hget
    omega

/-- Whatever a token whose generation is past is used for, it is fenced and changes nothing. -/
theorem Past.fenced (h : Past token.offset token.generation t) (now delayNanos : Nat) :
    t.ack token = (.fenced, t) ∧ t.nack token now delayNanos = (.fenced, t)
      ∧ t.extend token now = (.fenced, t) ∧ t.holdsActive token now = false := by
  simp [ack, nack, extend, holdsActive, h.owned]

/-! ## Over any sequence of calls -/

theorem granted_eq_some {e : Event} (h : granted e = some token) :
    ∃ n, e.output = .claim (.granted token n) := by
  unfold granted at h
  split at h
  · rename_i token' n heq
    obtain rfl := Option.some.inj h
    exact ⟨n, heq⟩
  · cases h

/-- An event that granted a token drew its generation. -/
theorem granted_step {call : Call} (h : granted (machine.event t call) = some token) :
    token.generation = t.nextGeneration
      ∧ (machine.step t call).2.nextGeneration = t.nextGeneration + 1
      ∧ ∀ lease, (machine.step t call).2.leases.get token.offset = some lease →
        lease.generation = token.generation := by
  obtain ⟨n, hout⟩ := granted_eq_some h
  cases call with
  | claim offset now =>
    have hclaim : (t.claim offset.toNat now.toNat).1 = .granted token n := Answer.claim.inj hout
    rcases claim_cases t offset.toNat now.toNat with ⟨-, hne⟩ | ⟨lease, k, hgr, hnext, hleases, hg⟩
    · exact absurd hclaim (hne token n)
    · obtain ⟨rfl, -⟩ := Claim.granted.inj (hgr.symm.trans hclaim)
      refine ⟨rfl, hnext, fun lease' hget => ?_⟩
      have hget' : (t.claim offset.toNat now.toNat).2.leases.get offset.toNat = some lease' := hget
      rw [hleases, get_insert_self] at hget'
      rw [← Option.some.inj hget', hg]
  | _ => cases hout

/-- Grants come with ascending generations. -/
theorem grants_pairwise (t : LeaseTable) (calls : List Call) :
    (grants t calls).Pairwise fun a b => a.generation < b.generation := by
  rw [grants, List.pairwise_filterMap]
  refine Mealy.pairwise_trace (I := fun _ => True)
    (K := fun e t => ∀ token, granted e = some token → token.generation < t.nextGeneration)
    (fun _ _ _ => trivial) (fun t call _ token h => ?_) (fun e t call _ h token hg => ?_)
    (fun e t call _ h token hg token' hg' => ?_) trivial calls
  · obtain ⟨hgen, hnext, -⟩ := granted_step h
    omega
  · exact lt_of_lt_of_le (h token hg) (step_moves t call).next_le
  · rw [(granted_step hg').1]
    exact h token hg

/-- A successful acknowledgement takes the lease of its token away. -/
theorem ackedBy_step {call : Call} (hd : t.Drawn)
    (h : ackedBy token (machine.event t call) = true) :
    Past token.offset token.generation (machine.step t call).2 := by
  obtain ⟨hin, hout⟩ := (Bool.and_eq_true _ _).mp h
  have hcall : call = .ack token := of_decide_eq_true hin
  subst hcall
  have hacked : (t.ack token).1 = .acked := Answer.ack.inj (of_decide_eq_true hout)
  cases howned : t.owned token with
  | none =>
    rw [ack, howned] at hacked
    cases hacked
  | some lease =>
    obtain ⟨hget, hg⟩ := owned_eq_some howned
    have hstep : (machine.step t (.ack token)).2
        = { t with leases := t.leases.erase token.offset } := by
      show (t.ack token).2 = _
      rw [ack, howned]
    rw [hstep]
    refine ⟨hg ▸ hd _ _ hget, fun lease' hget' => ?_⟩
    rw [get_erase_self] at hget'
    cases hget'

/-- A token acknowledges at most once. -/
theorem countP_ackedBy_le_one (hd : t.Drawn) (token : LeaseToken) (calls : List Call) :
    (machine.trace t calls).countP (ackedBy token) ≤ 1 := by
  refine List.countP_le_one_of_pairwise ?_
  refine Mealy.pairwise_trace (I := Drawn)
    (K := fun e t => ackedBy token e = true → Past token.offset token.generation t)
    (fun t call h => (step_moves t call).drawn h) (fun t call hd h => ackedBy_step hd h)
    (fun e t call _ h he => (step_moves t call).past (h he)) (fun e t call _ h he => ?_) hd calls
  rw [Bool.eq_false_iff]
  intro hacked
  obtain ⟨hin, hout⟩ := (Bool.and_eq_true _ _).mp hacked
  have hcall : call = .ack token := of_decide_eq_true hin
  subst hcall
  have hfenced : (t.ack token).1 = .fenced := by rw [((h he).fenced 0 0).1]
  have : (t.ack token).1 = .acked := Answer.ack.inj (of_decide_eq_true hout)
  rw [hfenced] at this
  cases this

/-- A grant puts every smaller generation at its offset into the past, for good. -/
theorem past_of_mem_grants {calls : List Call} (h : token ∈ grants t calls) {g : Nat}
    (hg : g < token.generation) :
    Past token.offset g (machine.run t calls) := by
  obtain ⟨e, he, hgr⟩ := List.mem_filterMap.mp h
  obtain ⟨pre, call, post, rfl, rfl⟩ := Mealy.mem_trace.mp he
  rw [Mealy.run_append]
  obtain ⟨hgen, hnext, hlease⟩ := granted_step hgr
  have hpast : Past token.offset g (machine.step (machine.run t pre) call).2 :=
    ⟨by omega, fun lease hget => by rw [hlease lease hget]; exact hg⟩
  exact past_run hpast post

/-- A fresh table, with the attempt counts a restart recovered. -/
def start (config : LeaseConfig) (attempts : List (Nat × Nat)) : LeaseTable :=
  (new config).resumeAttempts attempts

theorem drawn_start (config : LeaseConfig) (attempts : List (Nat × Nat)) :
    (start config attempts).Drawn := fun _ _ h => by cases h

/-- Over any sequence of calls: no token is granted twice, a token acknowledges at most once, and
once a newer grant of its offset exists an older token is fenced from everything. -/
theorem tokens_fence (config : LeaseConfig) (attempts : List (Nat × Nat)) (calls : List Call) :
    (grants (start config attempts) calls).Nodup
      ∧ (∀ token, (machine.trace (start config attempts) calls).countP (ackedBy token) ≤ 1)
      ∧ ∀ older newer, [older, newer].Sublist (grants (start config attempts) calls) →
        older.offset = newer.offset → ∀ now delayNanos,
        let t := machine.run (start config attempts) calls
        t.ack older = (.fenced, t) ∧ t.nack older now delayNanos = (.fenced, t)
          ∧ t.extend older now = (.fenced, t) ∧ t.holdsActive older now = false := by
  have hpair := grants_pairwise (start config attempts) calls
  refine ⟨?_, fun token => countP_ackedBy_le_one (drawn_start config attempts) token calls, ?_⟩
  · exact hpair.imp fun {a b} hlt heq => by rw [heq] at hlt; exact lt_irrefl _ hlt
  · intro older newer hsub hoff now delayNanos
    have hlt : older.generation < newer.generation := by
      have := hpair.sublist hsub
      simpa using this
    have hmem : newer ∈ grants (start config attempts) calls := hsub.subset (by simp)
    have hpast := past_of_mem_grants hmem hlt
    rw [← hoff] at hpast
    exact hpast.fenced now delayNanos

/-- A message claimed, expired and claimed again: the first holder's late acknowledgement is
fenced. -/
theorem tokens_fence_reclaimed :
    grants (start ⟨30, 100⟩ []) [.claim 0 0, .claim 0 30] = [⟨0, 0⟩, ⟨0, 1⟩]
      ∧ ((machine.run (start ⟨30, 100⟩ []) [.claim 0 0, .claim 0 30]).ack ⟨0, 0⟩).1 = .fenced := by
  have hgrants : grants (start ⟨30, 100⟩ []) [.claim 0 0, .claim 0 30] = [⟨0, 0⟩, ⟨0, 1⟩] := by
    decide
  refine ⟨hgrants, ?_⟩
  have hfence := (tokens_fence ⟨30, 100⟩ [] [.claim 0 0, .claim 0 30]).2.2 ⟨0, 0⟩ ⟨0, 1⟩
    (by rw [hgrants]) rfl 31 0
  rw [hfence.1]

end LeaseTable

end IronBus
