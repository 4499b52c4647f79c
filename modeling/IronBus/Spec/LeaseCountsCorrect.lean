import IronBus.Spec.GroupSlotCorrect

/-!
# Attempts, and what the queries say of a claim

The attempt count of an offset lives in its lease while it has one and in the carried counts until
then, never in both.

Key results:
- `attempts_step`, `grants_count`: a claim counts one more than the table knew; only an
  acknowledgement or a release drops the count, and a restart that saves all counts brings it back
- `queries_follow_claim`: the queries read the decision of `claim` off the same fields
-/

namespace IronBus

open LeaseTable NatMap

namespace LeaseTable

variable {t : LeaseTable} {o now : Nat}

/-! ## One count for each offset -/

/-- No offset is both leased and carried. -/
def Disjoint (t : LeaseTable) : Prop :=
  ∀ o, t.leases.get o = none ∨ t.carried.get o = none

variable {lease : Lease} {t' : LeaseTable} {cap : Nat}

/-- With one count for each offset, a snapshot holds the count the table knows. -/
theorem Disjoint.mem_allAttemptCounts (h : t.Disjoint) (hpos : 0 < t.attempts o) :
    (o, t.attempts o) ∈ t.allAttemptCounts
      ∧ ∀ m, (o, m) ∈ t.allAttemptCounts → m = t.attempts o := by
  obtain ⟨n, hn, hmem, huniq⟩ := exists_mem_allAttemptCounts t hpos
  have heq : n = t.attempts o := by
    obtain ⟨i, -, hi⟩ := List.mem_filterMap.mp hmem
    unfold attempts
    rcases h i with hl | hc
    · rw [hl] at hi
      cases hc : t.carried.get i <;> simp_all
    · rw [hc] at hi
      cases hl : t.leases.get i <;> simp_all
  exact heq ▸ ⟨hmem, huniq⟩

theorem disjoint_start (config : LeaseConfig) (attempts : List (Nat × Nat)) :
    (start config attempts).Disjoint := fun _ => .inl rfl

/-- A lease that replaces another leaves the offsets apart. -/
theorem Disjoint.insert {lease' : Lease} (h : t.Disjoint) (hget : t.leases.get o = some lease)
    (hleases : t'.leases = t.leases.insert o lease') (hcarried : t'.carried = t.carried) :
    t'.Disjoint := by
  intro o'
  rw [hleases, hcarried]
  by_cases ho : o' = o
  · subst ho
    exact .inr ((h o').resolve_left (by simp [hget]))
  · rw [get_insert_of_ne ho]
    exact h o'

theorem Disjoint.relet (h : t.Disjoint) (hr : t.Relet t') : t'.Disjoint := by
  cases hr with
  | same => exact h
  | lease hget => exact h.insert hget rfl rfl

theorem Disjoint.claim (h : t.Disjoint) (o now : Nat) : (t.claim o now).2.Disjoint := by
  unfold LeaseTable.claim
  split
  · exact h
  cases checkedAdd t.nextGeneration 1 with
  | none => exact h
  | some next =>
    simp only [grant]
    cases hget : t.leases.get o with
    | some lease => exact h.insert hget rfl rfl
    | none =>
      -- the count moves from the carried ones into the lease
      intro o'
      by_cases ho : o' = o
      · exact .inr (by simp [ho])
      · simp only [get_insert_of_ne ho, get_erase_of_ne ho]
        exact h o'

theorem Disjoint.releaseBelow (h : t.Disjoint) (upTo : Nat) : (t.releaseBelow upTo).Disjoint := by
  intro o
  simp only [LeaseTable.releaseBelow, get_filterKeys]
  split
  · exact h o
  · exact .inl rfl

/-! ## Calls and restarts -/

/-- A call, or a restart that saves all attempt counts and resumes with them. -/
inductive Op where
  | call (call : Call)
  | restart (config : LeaseConfig)

/-- The table over restarts. -/
def restarting : Mealy LeaseTable Op Answer where
  step t
    | .call call => machine.step t call
    | .restart config => (.done, start config t.allAttemptCounts)

/-- The event grants the offset again, acknowledges it or releases it below the watermark. -/
def touches (o : Nat) (e : Mealy.Event LeaseTable Op Answer) : Bool :=
  match e.input, e.output with
  | .call (.claim offset _), .claim (.granted _ _) => offset.toNat = o
  | .call (.ack token), .ack .acked => token.offset = o
  | .call (.releaseBelow upTo), _ => o < upTo.toNat
  | _, _ => false

theorem Disjoint.step (h : t.Disjoint) (op : Op) : (restarting.step t op).2.Disjoint := by
  cases op with
  | restart config => exact disjoint_start config _
  | call call =>
    cases call with
    | claim offset now => exact h.claim _ _
    | ack token =>
      simp only [restarting, machine, ack]
      cases t.owned token with
      | none => exact h
      | some lease =>
        intro o
        by_cases ho : o = token.offset
        · exact .inl (by simp [ho])
        · simpa [get_erase_of_ne ho] using h o
    | nack token now delayNanos => exact h.relet (nack_relet ..)
    | extend token now => exact h.relet (extend_relet ..)
    | deferRedelivery offset now delayNanos => exact h.relet (deferRedelivery_relet ..)
    | releaseBelow upTo => exact h.releaseBelow _
    | shiftDeadlines delta =>
      intro o
      simpa [restarting, machine, shiftDeadlines] using h o
    | expired now => exact h

/-- What does not touch an offset keeps its count. -/
theorem attempts_step (h : t.Disjoint) (hpos : 0 < t.attempts o) (op : Op)
    (hkeep : touches o (restarting.event t op) = false) :
    (restarting.step t op).2.attempts o = t.attempts o := by
  cases op with
  | restart config =>
    obtain ⟨hmem, huniq⟩ := h.mem_allAttemptCounts hpos
    have hget := resumeAttempts_carried (t := new config) hpos (.inl hmem) huniq
    exact congrArg (·.getD 0) hget
  | call call =>
    cases call with
    | claim offset now =>
      rcases claim_cases t offset.toNat now.toNat with ⟨hsame, -⟩ | ⟨lease, n, hgr, -⟩
      · exact congrArg (attempts · o) hsame
      · have ho : o ≠ offset.toNat := fun ho => by
          simp [touches, Mealy.event, restarting, machine, hgr, ho] at hkeep
        exact (claim_granted (Prod.ext hgr rfl)).attempts_of_ne ho
    | ack token =>
      simp only [restarting, machine, ack, Mealy.event] at hkeep ⊢
      cases howned : t.owned token with
      | none => rfl
      | some lease =>
        have ho : o ≠ token.offset := fun ho => by simp [touches, howned, ho] at hkeep
        simp [attempts, get_erase_of_ne ho]
    | nack token now delayNanos => exact (nack_relet ..).attempts o
    | extend token now => exact (extend_relet ..).attempts o
    | deferRedelivery offset now delayNanos => exact (deferRedelivery_relet ..).attempts o
    | releaseBelow upTo =>
      have hle : upTo.toNat ≤ o := by simpa [touches, Mealy.event] using hkeep
      simp [restarting, machine, releaseBelow, attempts, get_filterKeys, hle]
    | shiftDeadlines delta => exact attempts_shiftDeadlines _ _ _
    | expired now => rfl

/-- Over calls and restarts that do not touch an offset its count stays. -/
theorem attempts_run (h : t.Disjoint) (hpos : 0 < t.attempts o) (ops : List Op)
    (hkeep : ∀ e ∈ restarting.trace t ops, touches o e = false) :
    (restarting.run t ops).Disjoint ∧ (restarting.run t ops).attempts o = t.attempts o := by
  induction ops generalizing t with
  | nil => exact ⟨h, rfl⟩
  | cons op ops ih =>
    obtain ⟨hop, hops⟩ := List.forall_mem_cons.mp hkeep
    have heq := attempts_step h hpos op hop
    obtain ⟨hd, hrest⟩ := ih (h.step op) (heq ▸ hpos) hops
    exact ⟨hd, hrest.trans heq⟩

/-- From any counts on and over any calls and restarts, the leases and the carried counts stay
apart, and a grant counts one more than the last grant of its offset, up to what a `u32` holds,
unless the offset was acknowledged or released in between. -/
theorem grants_count (config : LeaseConfig) (counts : List (Nat × Nat)) (ops : List Op) :
    let t := restarting.run (start config counts) ops
    t.Disjoint ∧ ∀ (offset now now' : UInt64) token token' n n' later,
      let t₁ := (restarting.step t (.call (.claim offset now))).2
      (restarting.step t (.call (.claim offset now))).1 = .claim (.granted token n) →
      (∀ e ∈ restarting.trace t₁ later, touches offset.toNat e = false) →
      (restarting.step (restarting.run t₁ later) (.call (.claim offset now'))).1
        = .claim (.granted token' n') →
      n' = saturatingAddU32 n 1 := by
  intro t
  have hdisjoint : t.Disjoint :=
    Mealy.run_inv (fun _ op h => h.step op) (disjoint_start config counts) ops
  refine ⟨hdisjoint, ?_⟩
  intro offset now now' token token' n n' later t₁ hfirst hlater hnext
  have hclaimed : t.Claimed offset.toNat token n t₁ := claim_granted (Prod.ext (by
    simpa [restarting, machine] using hfirst) rfl)
  have hpos : 0 < t₁.attempts offset.toNat := by
    rw [hclaimed.attempts_self, hclaimed.deliveries_eq, saturatingAddU32]
    omega
  obtain ⟨-, hcount⟩ := attempts_run (hdisjoint.step _) hpos later hlater
  have hclaimed' := claim_granted (t := restarting.run t₁ later) (Prod.ext (by
    simpa [restarting, machine] using hnext) rfl)
  rw [hclaimed'.deliveries_eq, hcount, hclaimed.attempts_self]

/-- A claim, an expiry, a restart and a second claim: the counts are one and two. -/
theorem grants_count_restart :
    let t := start ⟨30, 100⟩ []
    let t₁ := (restarting.step t (.call (.claim 7 0))).2
    let t₂ := restarting.run t₁ [.restart ⟨30, 100⟩]
    (restarting.step t (.call (.claim 7 0))).1 = .claim (.granted ⟨7, 0⟩ 1) ∧
      (restarting.step t₂ (.call (.claim 7 40))).1 = .claim (.granted ⟨7, 0⟩ 2) ∧
      2 = saturatingAddU32 1 1 := by
  intro t t₁ t₂
  have hfirst : (restarting.step t (.call (.claim 7 0))).1 = .claim (.granted ⟨7, 0⟩ 1) := by decide
  have hnext : (restarting.step t₂ (.call (.claim 7 40))).1 = .claim (.granted ⟨7, 0⟩ 2) := by
    decide
  exact ⟨hfirst, hnext, (grants_count ⟨30, 100⟩ [] []).2 7 0 40 ⟨7, 0⟩ ⟨7, 0⟩ 1 2
    [.restart ⟨30, 100⟩] hfirst (by decide) hnext⟩

/-- At the end of the `u32` range a grant repeats the number of the last one. -/
theorem grants_count_saturates :
    let t := start ⟨30, 100⟩ [(7, 4294967294)]
    let t₁ := (restarting.step t (.call (.claim 7 0))).2
    (restarting.step t (.call (.claim 7 0))).1 = .claim (.granted ⟨7, 0⟩ 4294967295) ∧
      (restarting.step t₁ (.call (.claim 7 40))).1 = .claim (.granted ⟨7, 1⟩ 4294967295) := by
  decide

/-! ## What the queries say of a claim -/

/-- A claim of the offset would be granted. -/
def Grants (t : LeaseTable) (o now : Nat) : Prop :=
  ∃ token n, (t.claim o now).1 = .granted token n

theorem isClaimable_iff :
    t.isClaimable o now = true ↔ ∀ lease, t.leases.get o = some lease → lease.deadline ≤ now := by
  cases hget : t.leases.get o <;> simp [isClaimable, hget]

theorem mem_expired_iff :
    o ∈ t.expired now ↔ ∃ lease, t.leases.get o = some lease ∧ lease.deadline ≤ now := by
  cases hget : t.leases.get o <;> simp [expired, mem_keys, hget]

/-- A claim is granted when nothing holds the offset and a generation is left. -/
theorem grants_iff :
    t.Grants o now ↔ t.isClaimable o now = true ∧ t.nextGeneration < u64Max := by
  unfold Grants claim isClaimable
  cases (t.leases.get o).any fun lease => decide (now < lease.deadline) with
  | true => simp
  | false =>
    by_cases hleft : t.nextGeneration < u64Max
    · obtain ⟨n, hgr, -⟩ := grant_claimed t o now _ rfl
      have hnext : checkedAdd t.nextGeneration 1 = some (t.nextGeneration + 1) := by
        simp [checkedAdd, Nat.succ_le_of_lt hleft]
      simp [hnext, hgr, hleft]
    · have hnext : checkedAdd t.nextGeneration 1 = none := by
        simp only [checkedAdd]
        exact if_neg (by omega)
      simp [hnext, hleft]

/-- A redelivery counts one more than the query tells. -/
theorem pendingRedeliveryAttempt_of_claim {token : LeaseToken} {n : Nat}
    (hclaim : (t.claim o now).1 = .granted token n) (hlease : (t.leases.get o).isSome) :
    ∃ m, t.pendingRedeliveryAttempt o now = some m ∧ n = saturatingAddU32 m 1 := by
  obtain ⟨lease, hget⟩ := Option.isSome_iff_exists.mp hlease
  have hle := isClaimable_iff.mp (grants_iff.mp ⟨token, n, hclaim⟩).1 lease hget
  refine ⟨lease.deliveries, by simp [pendingRedeliveryAttempt, hget, hle], ?_⟩
  rw [(claim_granted (Prod.ext hclaim rfl)).deliveries_eq, attempts, hget]

theorem pendingRedeliveryAttempt_eq_none
    (h : t.leases.get o = none ∨ t.isClaimable o now = false) :
    t.pendingRedeliveryAttempt o now = none := by
  cases hget : t.leases.get o with
  | none => simp [pendingRedeliveryAttempt, hget]
  | some lease =>
    simp only [hget, isClaimable, reduceCtorEq, false_or] at h
    simpa [pendingRedeliveryAttempt, hget] using h

/-! ## The hard cap of an attempt -/

/-- The deadline of an offset's lease lies within the hard cap of its attempt. -/
def Capped (o cap : Nat) (t : LeaseTable) : Prop :=
  t.config.hardCapNanos = cap ∧
    ∀ lease, t.leases.get o = some lease → lease.deadline ≤ saturatingAdd lease.attemptStart cap

/-- The event ends the attempt of an offset and sets the time of the next. -/
def requeues (o : Nat) (e : Event) : Bool :=
  match e.input, e.output with
  | .nack token _ _, .nack (.requeued _) => token.offset = o
  | .deferRedelivery offset _ _, .deferred true => offset.toNat = o
  | _, _ => false

theorem Capped.insert {k : Nat} (h : t.Capped o cap) (hconfig : t'.config = t.config)
    (hleases : t'.leases = t.leases.insert k lease)
    (hle : k = o → lease.deadline ≤ saturatingAdd lease.attemptStart cap) : t'.Capped o cap := by
  refine ⟨hconfig ▸ h.1, fun l hl => ?_⟩
  rw [hleases] at hl
  by_cases hk : o = k
  · rw [hk, get_insert_self] at hl
    obtain rfl := Option.some.inj hl
    exact hle hk.symm
  · rw [get_insert_of_ne hk] at hl
    exact h.2 l hl

theorem Capped.claim (h : t.Capped o cap) (k now : Nat) :
    (t.claim k now).2.Capped o cap := by
  unfold LeaseTable.claim
  split
  · exact h
  · cases checkedAdd t.nextGeneration 1 with
    | none => exact h
    | some next =>
      have hcap : t.config.hardCapNanos = cap := h.1
      simp only [grant]
      cases t.leases.get k <;>
        exact h.insert rfl rfl fun _ => (min_le_right _ _).trans (by rw [hcap])

/-- A granted claim starts an attempt within its hard cap. -/
theorem capped_of_grant {token : LeaseToken} {n : Nat} (h : (t.claim o now).1 = .granted token n) :
    (t.claim o now).2.Capped o t.config.hardCapNanos := by
  unfold claim at h ⊢
  split at h
  · cases h
  rename_i hfree
  rw [if_neg hfree]
  cases hnext : checkedAdd t.nextGeneration 1 with
  | none =>
    rw [hnext] at h
    cases h
  | some next =>
    simp only [grant]
    cases t.leases.get o <;> refine ⟨rfl, fun l hl => ?_⟩ <;>
      · rw [get_insert_self] at hl
        obtain rfl := Option.some.inj hl
        exact min_le_right _ _

theorem Capped.step (h : t.Capped o cap) (call : Call)
    (hkeep : requeues o (machine.event t call) = false) : (machine.step t call).2.Capped o cap := by
  cases call with
  | claim offset now => exact h.claim _ _
  | ack token =>
    simp only [machine, ack]
    cases t.owned token with
    | none => exact h
    | some lease =>
      refine ⟨h.1, fun l hl => h.2 l ?_⟩
      by_cases ho : o = token.offset
      · simp [ho] at hl
      · simpa [get_erase_of_ne ho] using hl
  | nack token now delayNanos =>
    -- a nack and a deferral may pass the cap, so the run has none of them
    simp only [machine, nack, requeues, Mealy.event] at hkeep ⊢
    cases howned : t.owned token with
    | none => exact h
    | some lease =>
      cases hnext : checkedAdd t.nextGeneration 1 with
      | none => exact h
      | some next =>
        exact h.insert rfl rfl fun ho => by simp [howned, hnext, ho] at hkeep
  | extend token now =>
    simp only [machine, extend]
    cases howned : t.owned token with
    | none => exact h
    | some lease =>
      have hcap : t.config.hardCapNanos = cap := h.1
      simp only
      split
      · exact h
      · exact h.insert rfl rfl fun _ => (min_le_right _ _).trans (by rw [hcap])
  | deferRedelivery offset now delayNanos =>
    simp only [machine, deferRedelivery, requeues, Mealy.event] at hkeep ⊢
    cases hget : t.leases.get offset.toNat with
    | none => exact h
    | some lease =>
      simp only
      split_ifs with hle
      · exact h.insert rfl rfl fun ho => by
          subst ho
          simp [hget, hle] at hkeep
      · exact h
  | releaseBelow upTo =>
    refine ⟨h.1, fun l hl => h.2 l ?_⟩
    simp only [machine, releaseBelow, get_filterKeys] at hl
    split at hl
    · exact hl
    · cases hl
  | shiftDeadlines delta =>
    refine ⟨h.1, fun l hl => ?_⟩
    simp only [machine, shiftDeadlines, get_map, Option.map_eq_some_iff] at hl
    obtain ⟨lease, hget, rfl⟩ := hl
    have hle := h.2 lease hget
    simp only [saturatingAdd] at hle ⊢
    omega
  | expired now => exact h

theorem Capped.run (h : t.Capped o cap) (calls : List Call)
    (hkeep : ∀ e ∈ machine.trace t calls, requeues o e = false) :
    (machine.run t calls).Capped o cap := by
  induction calls generalizing t with
  | nil => exact h
  | cons call calls ih =>
    obtain ⟨hcall, hcalls⟩ := List.forall_mem_cons.mp hkeep
    exact ih (h.step call hcall) hcalls

/-- What the queries of a table say of the claims to come. A claim is granted when the offset is
claimable and a generation is left; the expired offsets are those whose lease a claim would take
over; a redelivery counts one more than `pending_redelivery_attempt`, which is empty when there is
no lease or it is active; and while a granted lease is not requeued its deadline stays within the
hard cap of its attempt. -/
theorem queries_follow_claim (t : LeaseTable) (o now : Nat) :
    (t.Grants o now ↔ t.isClaimable o now = true ∧ t.nextGeneration < u64Max) ∧
      (t.nextGeneration < u64Max →
        (o ∈ t.expired now ↔ (t.leases.get o).isSome ∧ t.Grants o now)) ∧
      (∀ token n, (t.claim o now).1 = .granted token n → (t.leases.get o).isSome →
        ∃ m, t.pendingRedeliveryAttempt o now = some m ∧ n = saturatingAddU32 m 1) ∧
      (t.leases.get o = none ∨ t.isClaimable o now = false →
        t.pendingRedeliveryAttempt o now = none) ∧
      ∀ token n calls, (t.claim o now).1 = .granted token n →
        (∀ e ∈ machine.trace (t.claim o now).2 calls, requeues o e = false) →
        ∀ lease, (machine.run (t.claim o now).2 calls).leases.get o = some lease →
          lease.deadline ≤ saturatingAdd lease.attemptStart t.config.hardCapNanos := by
  refine ⟨grants_iff, fun hleft => ?_, fun token n => pendingRedeliveryAttempt_of_claim,
    pendingRedeliveryAttempt_eq_none, fun token n calls hclaim hkeep lease hget => ?_⟩
  · rw [mem_expired_iff, grants_iff, isClaimable_iff, and_iff_left hleft]
    cases t.leases.get o <;> simp
  · exact ((capped_of_grant hclaim).run calls hkeep).2 lease hget

/-- A lease taken at 0 and extended twice; at 100 it is taken over as the second attempt. -/
theorem queries_follow_claim_extended :
    let t := start ⟨30, 100⟩ []
    let calls : List Call := [.extend ⟨7, 0⟩ 25, .extend ⟨7, 0⟩ 80]
    (machine.run (t.claim 7 0).2 calls).leases.get 7 = some ⟨0, 0, 100, 1⟩ ∧
      100 ≤ saturatingAdd 0 100 ∧
      ∃ m, (machine.run (t.claim 7 0).2 calls).pendingRedeliveryAttempt 7 100 = some m ∧
        2 = saturatingAddU32 m 1 := by
  intro t calls
  have hget : (machine.run (t.claim 7 0).2 calls).leases.get 7 = some ⟨0, 0, 100, 1⟩ := by decide
  refine ⟨hget, ?_, ?_⟩
  · exact (queries_follow_claim t 7 0).2.2.2.2 ⟨7, 0⟩ 1 calls (by decide) (by decide) _ hget
  · exact (queries_follow_claim (machine.run (t.claim 7 0).2 calls) 7 100).2.2.1 ⟨7, 1⟩ 2
      (by decide) (by decide)

/-- The query tells one attempt less than the claim returns. -/
theorem pendingRedeliveryAttempt_behind :
    let t := ((start ⟨30, 100⟩ []).claim 7 0).2
    t.pendingRedeliveryAttempt 7 30 = some 1 ∧ (t.claim 7 30).1 = .granted ⟨7, 1⟩ 2 := by
  decide

end LeaseTable

end IronBus
