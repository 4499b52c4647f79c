import IronBus.Spec.GroupSlotCorrect

/-!
# A record is handed out at most as often as its limit says

How often a record was handed out lives in its lease, so the limit holds as long as nobody drops
the lease of a record that can still be delivered. A run keeps, as history, how often each record
was handed out before it was settled.

Key results:
- `Inv.polled`, `Inv.restart`: the lease has counted at least that many attempts
- `handed_le_maxDeliver`: so no run hands a record out more often
-/

namespace IronBus

open LeaseTable WorkGroup

namespace DeliveryLimit

/-! ## Runs -/

/-- A group, and what has happened to the records of its stream. -/
structure World where
  group : WorkGroup
  budget : RetryBudget
  /-- The wall clock of the last poll. -/
  clock : Nat
  /-- How often each record was handed out before it was settled. -/
  handed : Nat → Nat
  /-- The records that were acknowledged, terminated or dead-lettered. -/
  settled : Nat → Bool

/-- The log returns the record that was stored at an offset, or a later one. -/
structure Faithful (content : Nat → OwnedRecord) (env : PollEnv) : Prop where
  record : ∀ o r, Reads env o r → r = content o
  le : ∀ o r, env.read o = .ok (some r) → o ≤ r.offset
  flushed_le : env.flushed ≤ u64Max

namespace World

def start (g : WorkGroup) (budget : RetryBudget) (clock : Nat) : World :=
  ⟨g, budget, clock, fun _ => 0, fun _ => false⟩

/-- Counts a delivery of a record that is not settled. -/
def hand (w : World) (o : Nat) : World :=
  { w with handed := if w.settled o then w.handed else Function.update w.handed o (w.handed o + 1) }

def settle (w : World) (o : Nat) : World :=
  { w with settled := Function.update w.settled o true }

/-- The world after a poll. A record that has to be dead-lettered is settled once its copies are
`durable`; otherwise the poll ends in an error and the record stays where it is. -/
def polled (home : Home) (env : PollEnv) (durable : Bool) (w : World)
    (res : PollEnd × RetryBudget × WorkGroup) : World :=
  let w := { w with group := res.2.2, budget := res.2.1, clock := env.nowUnixMillis }
  match res.1 with
  | .ok (.message d) => w.hand d.offset
  | .deadLetter o _ _ _ =>
    if durable then { w.settle o with group := w.group.deadLetterPast home o } else w
  | _ => w

/-- The world after an acknowledgement, which a termination ends in as well. -/
def acked (cfg : EngineConfig) (now : Nat) (token : LeaseToken) (w : World) : World :=
  match w.group.ackIn cfg now token with
  | (.acked, g) => { w.settle token.offset with group := g }
  | (.fenced, g) => { w with group := g }

end World

/-- The slot of a group whose checkpoints have just been written. -/
def checkpointed (g : WorkGroup) : GroupSlot :=
  (⟨some g, none, none, none, none⟩ : GroupSlot).writeGroupCheckpoint.writeGroupAttempts

/-- A restart that finds everything the group has seen: the checkpoints hold its whole cursor and
all its attempt counts, and the log still has the records. -/
structure CleanRestart (env : PollEnv) (g : WorkGroup) : Prop where
  durable : g.ephemeral = false
  runs : g.cursor.ahead.length ≤ maxCheckpointRuns
  counts : g.leases.allAttemptCounts.length ≤ maxCheckpointAttempts
  committed_le : g.cursor.committed ≤ env.flushed
  ahead_le : ∀ r ∈ g.cursor.ahead, r.2 ≤ env.flushed
  attempts_lt : ∀ o, 0 < g.leases.attempts o → o < env.flushed

/-- No record whose limit is spent lies behind one that the filter drops: the poll that reports the
filtered run would give back the lease of such a record, and with it the count. -/
def SpentInFront (cfg : EngineConfig) (content : Nat → OwnedRecord) (g : WorkGroup) : Prop :=
  ∀ start o, start < o → g.cursor.isAcked start = false → g.cursor.isAcked o = false →
    filteredOut g.pattern (content start) = true → filteredOut g.pattern (content o) = false →
      cfg.delivery.disposition (saturatingAddU32 (g.leases.attempts o) 1) = .deliver

section Steps

variable [Checksums]

/-- The steps of a group. -/
inductive Step (home : Home) (cfg : EngineConfig) (content : Nat → OwnedRecord) :
    World → World → Prop where
  | poll {w : World} (env : PollEnv) (member : Option MemberId) (hlog : Faithful content env)
    (hclock : w.clock ≤ env.nowUnixMillis) (hearliest : env.earliest ≤ w.group.cursor.committed)
    (hspent : SpentInFront cfg content w.group) :
    -- and every dead-letter append succeeds
    Step home cfg content w
      (w.polled home env true (w.group.pollInStream home cfg env member w.budget))
  | ack {w : World} (now : Nat) (token : LeaseToken) :
    Step home cfg content w (w.acked cfg now token)
  | nack {w : World} (now : Nat) (token : LeaseToken) (delayMs : Nat) :
    Step home cfg content w { w with group := (w.group.nackIn cfg now token delayMs).2 }
  | progress {w : World} (now : Nat) (token : LeaseToken) :
    Step home cfg content w { w with group := (w.group.progressIn now token).2 }
  | pause {w : World} (now pauseMs : Nat) :
    Step home cfg content w { w with group := (w.group.applyPause now pauseMs).2 }
  /-- Filter, ordering, broadcast, streaming and membership changes. -/
  | mode {w : World} (g : WorkGroup) (hcursor : g.cursor = w.group.cursor)
    (hleases : g.leases = w.group.leases) (hmatch : g.pendingMatch = w.group.pendingMatch) :
    Step home cfg content w { w with group := g }
  | restart {w : World} (env : PollEnv) (g : WorkGroup) (hclean : CleanRestart env w.group)
    (hlive : ((checkpointed w.group).restart cfg env).live = some g) :
    Step home cfg content w { w with group := g }

/-- The worlds a run reaches. -/
def Reach (home : Home) (cfg : EngineConfig) (content : Nat → OwnedRecord) :
    World → World → Prop :=
  Relation.ReflTransGen (Step home cfg content)

end Steps

/-! ## The invariant -/

/-- A record waits to be dead-lettered because it has expired. -/
def spoiled (cfg : EngineConfig) (clock : Nat) (r : OwnedRecord) : Bool :=
  cfg.deadLettersExpired && recordIsExpired cfg.defaultMessageTtl clock r

/-- The table of a group has counted every delivery of a record that may go out again, and one
attempt more for a match that waits for the next poll. -/
structure Counted (cfg : EngineConfig) (content : Nat → OwnedRecord) (w : World) (g : WorkGroup) :
    Prop where
  wf : g.cursor.Wf
  counted : ∀ o, w.settled o = false → g.cursor.isAcked o = false →
    spoiled cfg w.clock (content o) = false → w.handed o ≤ g.leases.attempts o
  stash : ∀ d, g.pendingMatch = some d → recordIsUndue w.clock (content d.offset) = false
    ∧ (w.settled d.offset = false → w.handed d.offset + 1 ≤ g.leases.attempts d.offset
      ∧ g.leases.attempts d.offset ≤ cfg.delivery.maxDeliver)

/-- What was handed out was due, and not more often than the limit. -/
structure History (cfg : EngineConfig) (content : Nat → OwnedRecord) (w : World) : Prop where
  due : ∀ o, 0 < w.handed o → recordIsUndue w.clock (content o) = false
  limit : ∀ o, w.handed o ≤ cfg.delivery.maxDeliver

structure Inv (cfg : EngineConfig) (content : Nat → OwnedRecord) (w : World) : Prop where
  history : History cfg content w
  table : Counted cfg content w w.group

section Lemmas

variable {cfg : EngineConfig} {content : Nat → OwnedRecord} {w : World} {g g' : WorkGroup}
  {env : PollEnv}

variable {r : OwnedRecord} {o : Nat}

theorem recordIsExpired_mono {ttl t t' : Nat} (hle : t ≤ t') (h : recordIsExpired ttl t r = true) :
    recordIsExpired ttl t' r = true := by
  simp only [recordIsExpired, Ttl.isExpired] at h ⊢
  split at h
  · cases h
  · rename_i hne
    rw [if_neg hne]
    simp only [decide_eq_true_eq] at h ⊢
    omega

theorem recordIsUndue_mono {t t' : Nat} (hle : t ≤ t') (h : recordIsUndue t r = false) :
    recordIsUndue t' r = false := by
  simp only [recordIsUndue, Delay.isUndue] at h ⊢
  cases hd : Delay.decodeDueHeaders r.headers with
  | none => rfl
  | some due =>
    simp only [hd, Option.any_some, decide_eq_false_iff_not] at h ⊢
    omega

/-- Nothing is lost when the clock moves on. -/
theorem Inv.tick {t : Nat} (h : Inv cfg content w) (hle : w.clock ≤ t) :
    Inv cfg content { w with clock := t } := by
  refine ⟨⟨fun o ho => recordIsUndue_mono hle (h.history.due o ho), h.history.limit⟩,
    h.table.wf, fun o hset hacked hsp => h.table.counted o hset hacked ?_,
    fun d hd => ⟨recordIsUndue_mono hle (h.table.stash d hd).1, (h.table.stash d hd).2⟩⟩
  simp only [spoiled, Bool.and_eq_false_iff] at hsp ⊢
  refine hsp.imp_right fun hexp => ?_
  rw [Bool.eq_false_iff] at hexp ⊢
  exact fun h => hexp (recordIsExpired_mono hle h)

/-- What happened does not depend on the group. -/
theorem Inv.regroup (hist : History cfg content w) (h : Counted cfg content w g) :
    Inv cfg content { w with group := g } :=
  ⟨⟨hist.due, hist.limit⟩, h.wf, h.counted, h.stash⟩

/-- Only the cursor, the counts and the waiting match matter. -/
theorem Counted.congr (h : Counted cfg content w g) (hcursor : g'.cursor = g.cursor)
    (hatt : ∀ o, g'.leases.attempts o = g.leases.attempts o)
    (hmatch : g'.pendingMatch = g.pendingMatch) : Counted cfg content w g' := by
  refine ⟨hcursor ▸ h.wf, fun o hset hacked hsp => ?_, fun d hd => ?_⟩
  · rw [hatt]
    exact h.counted o hset (hcursor ▸ hacked) hsp
  · rw [hatt]
    exact h.stash d (hmatch ▸ hd)

/-- An offset is given up: the counts of the others stay, and its own is not needed any more. -/
theorem Counted.giveUp (h : Counted cfg content w g) (hl : Freed env g o g'.leases)
    (hp : g.pendingMatch = none ∨ g'.leases = g.leases)
    (hmatch : g'.pendingMatch = g.pendingMatch) (hwf : g'.cursor.Wf)
    (hsub : g.cursor.acked ⊆ g'.cursor.acked)
    (hself : w.settled o = false → g'.cursor.isAcked o = false →
      spoiled cfg w.clock (content o) = false → w.handed o ≤ g'.leases.attempts o) :
    Counted cfg content w g' := by
  refine ⟨hwf, fun o' hset hacked hsp => ?_, fun d hd => ?_⟩
  · by_cases ho : o' = o
    · subst ho
      exact hself hset hacked hsp
    · rw [hl.attempts_of_ne ho]
      refine h.counted o' hset ?_ hsp
      rw [Bool.eq_false_iff] at hacked ⊢
      exact fun h => hacked (hsub h)
  · rw [hmatch] at hd
    rcases hp with hnone | heq
    · rw [hnone] at hd
      cases hd
    · rw [heq]
      exact h.stash d hd

/-- An attempt within the limit is counted exactly. -/
theorem attempts_succ_of_deliver {n a : Nat} (hmax : 0 < cfg.delivery.maxDeliver)
    (hlt : cfg.delivery.maxDeliver < 2 ^ 32 - 1) (hn : n = saturatingAddU32 a 1)
    (hdeliver : cfg.delivery.disposition n = .deliver) :
    n = a + 1 ∧ n ≤ cfg.delivery.maxDeliver := by
  unfold DeliveryConfig.disposition at hdeliver
  split at hdeliver
  · cases hdeliver
  · rename_i hle
    unfold saturatingAddU32 at hn
    omega

/-! ## Polls -/

theorem unacked_of_subset {c c' : AckCursor} (hsub : c.acked ⊆ c'.acked)
    (h : c'.isAcked o = false) : c.isAcked o = false := by
  rw [Bool.eq_false_iff] at h ⊢
  exact fun hacked => h (hsub hacked)

/-- A granted offset that may go out has counted every delivery before the grant. -/
theorem Counted.granted (hmax : 0 < cfg.delivery.maxDeliver)
    (hlt : cfg.delivery.maxDeliver < 2 ^ 32 - 1) (hlog : Faithful content env)
    (hclock : w.clock = env.nowUnixMillis) (h : Counted cfg content w g) {n : Nat}
    {token : LeaseToken} {leases : LeaseTable} (hg : Granted env g o token n leases)
    (hr : Reads env o r) (ready : Ready cfg env r n) :
    n = g.leases.attempts o + 1 ∧ n ≤ cfg.delivery.maxDeliver
      ∧ recordIsUndue w.clock (content o) = false
      ∧ (w.settled o = false → w.handed o + 1 ≤ n) := by
  obtain ⟨heq, hle⟩ := attempts_succ_of_deliver hmax hlt
    (claim_granted hg.claim).deliveries_eq ready.within
  obtain rfl := hlog.record o r hr
  refine ⟨heq, hle, hclock ▸ ready.due, fun hset => ?_⟩
  have hsp : spoiled cfg w.clock (content o) = false := by
    rw [spoiled, hclock]
    cases hdlx : cfg.deadLettersExpired with
    | false => rfl
    | true => exact ready.fresh hdlx
  have := h.counted o hset hg.unacked hsp
  omega

/-- A grant counts one attempt more for its offset. -/
theorem Counted.grant (h : Counted cfg content w g) {n : Nat} {token : LeaseToken}
    {leases : LeaseTable} (hg : Granted env g o token n leases)
    (hn : w.settled o = false → spoiled cfg w.clock (content o) = false → w.handed o ≤ n)
    (o' : Nat) (hset : w.settled o' = false) (hacked : g.cursor.isAcked o' = false)
    (hsp : spoiled cfg w.clock (content o') = false) : w.handed o' ≤ leases.attempts o' := by
  have hclaimed := claim_granted hg.claim
  by_cases ho : o' = o
  · subst ho
    rw [hclaimed.attempts_self]
    exact hn hset hsp
  · rw [hclaimed.attempts_of_ne ho]
    exact h.counted o' hset hacked hsp

theorem Counted.settled (h : Counted cfg content w g) (now : Nat) :
    Counted cfg content w (g.pauseActive now).2 := by
  obtain ⟨leases, paused, heq, -, hatt⟩ := g.pauseActive_eq now
  rw [heq]
  exact h.congr rfl hatt rfl

/-- A silent move keeps the counts. -/
theorem Counted.move (hmax : 0 < cfg.delivery.maxDeliver)
    (hlt : cfg.delivery.maxDeliver < 2 ^ 32 - 1) (hlog : Faithful content env)
    (hclock : w.clock = env.nowUnixMillis) (hist : History cfg content w)
    (h : Counted cfg content w g) (hmove : Move cfg env g none g') :
    Counted cfg content w g' := by
  cases hmove with
  | stay => exact h
  | touch => exact h.congr rfl (fun _ => rfl) rfl
  | settle => exact h.settled env.now
  | retain => exact h.congr rfl (fun _ => rfl) rfl
  | defer o d => exact h.congr rfl (deferRedelivery_relet ..).attempts rfl
  | @strand o n token leases hg hp =>
    refine ⟨h.wf, h.grant hg fun hset hsp => ?_, fun d hd => ?_⟩
    · have hle := h.counted o hset hg.unacked hsp
      have hlimit := hist.limit o
      have hn := (claim_granted hg.claim).deliveries_eq
      unfold saturatingAddU32 at hn
      omega
    · rw [show g.pendingMatch = some d from hd] at hp
      cases hp
  | @wait o n token leases r hg hp hr why =>
    refine h.giveUp hg.freed (.inl hp) rfl h.wf subset_rfl fun hset _ hsp => ?_
    obtain rfl := hlog.record o r hr
    rcases why with hundue | ⟨hexp, hdlx⟩
    · -- a record that is not due yet was never handed out
      rcases Nat.eq_zero_or_pos (w.handed o) with h0 | hpos
      · rw [h0]
        exact Nat.zero_le _
      · have := hist.due o hpos
        rw [hclock, hundue] at this
        cases this
    · rw [spoiled, hclock, hexp, hdlx] at hsp
      cases hsp
  | @passHole o leases r hopen hread hne hl hp =>
    obtain ⟨hwf, hset⟩ := h.wf.ackRange o r.offset
    refine h.giveUp hl hp rfl hwf (fun x hx => (hset x).mpr (.inl hx)) fun _ hacked _ => ?_
    have hle := hlog.le o r hread
    have hbelow := hopen.below
    have hflushed := hlog.flushed_le
    have : o ∈ (g.cursor.ackRange o r.offset).acked :=
      (hset o).mpr (.inr ⟨Nat.le_refl o, by omega, by omega⟩)
    rw [show (g.cursor.ackRange o r.offset).isAcked o = true from this] at hacked
    cases hacked
  | @skip o leases router r hopen hr why hl hk hp =>
    obtain ⟨hwf, hset⟩ := h.wf.ack o
    refine h.giveUp hl hp rfl hwf (fun x hx => (hset x).mpr (.inl hx)) fun _ hacked _ => ?_
    have hbelow := hopen.below
    have hflushed := hlog.flushed_le
    have : o ∈ (g.cursor.ack o).2.acked := (hset o).mpr (.inr ⟨rfl, by omega⟩)
    rw [show (g.cursor.ack o).2.isAcked o = true from this] at hacked
    cases hacked

theorem Counted.quiet (hmax : 0 < cfg.delivery.maxDeliver)
    (hlt : cfg.delivery.maxDeliver < 2 ^ 32 - 1) (hlog : Faithful content env)
    (hclock : w.clock = env.nowUnixMillis) (hist : History cfg content w)
    (h : Counted cfg content w g) (hquiet : Quiet cfg env g g') :
    Counted cfg content w g' := by
  induction hquiet with
  | refl => exact h
  | tail _ hmove ih => exact ih.move hmax hlt hlog hclock hist hmove

theorem World.hand_handed (w : World) (o o' : Nat) :
    (w.hand o).handed o'
      = if o' = o ∧ w.settled o = false then w.handed o' + 1 else w.handed o' := by
  unfold hand
  cases hset : w.settled o with
  | true => simp
  | false =>
    by_cases ho : o' = o
    · subst ho
      simp
    · simp [ho]

/-- A record is handed out: its table has counted one attempt more than it was handed out before,
and the limit allows one more. -/
theorem Inv.hand (hist : History cfg content w)
    (hdue : recordIsUndue w.clock (content o) = false)
    (hlimit : w.settled o = false → w.handed o + 1 ≤ cfg.delivery.maxDeliver)
    (h : Counted cfg content w w.group)
    (hmore : w.settled o = false → w.handed o + 1 ≤ w.group.leases.attempts o)
    (hstash : ∀ d, w.group.pendingMatch = some d → d.offset = o → w.settled o = false →
      w.handed o + 2 ≤ w.group.leases.attempts o) :
    Inv cfg content (w.hand o) := by
  refine ⟨⟨fun o' ho' => ?_, fun o' => ?_⟩, h.wf, fun o' hset hacked hsp => ?_, fun d hd => ?_⟩
  · rw [World.hand_handed] at ho'
    split at ho'
    · rename_i heq
      rw [heq.1]
      exact hdue
    · exact hist.due o' ho'
  · rw [World.hand_handed]
    split_ifs with heq
    · rw [heq.1]
      exact hlimit heq.2
    · exact hist.limit o'
  · rw [World.hand_handed]
    split_ifs with heq
    · rw [heq.1]
      exact hmore heq.2
    · exact h.counted o' hset hacked hsp
  · refine ⟨(h.stash d hd).1, fun hset => ⟨?_, ((h.stash d hd).2 hset).2⟩⟩
    rw [World.hand_handed]
    split_ifs with heq
    · have := hstash d hd heq.1 heq.2
      rw [heq.1]
      exact this
    · exact ((h.stash d hd).2 hset).1

theorem World.settle_settled_eq_false {o' : Nat} :
    (w.settle o).settled o' = false ↔ o' ≠ o ∧ w.settled o' = false := by
  unfold settle
  by_cases ho : o' = o
  · simp [ho]
  · simp [ho]

/-- A record is settled: its count does not matter any more. -/
theorem Inv.settle (hist : History cfg content w) (hwf : g.cursor.Wf)
    (hcounted : ∀ o', o' ≠ o → w.settled o' = false → g.cursor.isAcked o' = false →
      spoiled cfg w.clock (content o') = false → w.handed o' ≤ g.leases.attempts o')
    (hstash : ∀ d, g.pendingMatch = some d → recordIsUndue w.clock (content d.offset) = false
      ∧ (d.offset ≠ o → w.settled d.offset = false →
        w.handed d.offset + 1 ≤ g.leases.attempts d.offset
          ∧ g.leases.attempts d.offset ≤ cfg.delivery.maxDeliver)) :
    Inv cfg content { w.settle o with group := g } := by
  refine ⟨⟨hist.due, hist.limit⟩, hwf, fun o' h hacked hsp => ?_, fun d hd => ?_⟩
  · obtain ⟨hne, hset⟩ := World.settle_settled_eq_false.mp h
    exact hcounted o' hne hset hacked hsp
  · refine ⟨(hstash d hd).1, fun h => ?_⟩
    obtain ⟨hne, hset⟩ := World.settle_settled_eq_false.mp h
    exact (hstash d hd).2 hne hset

/-- What a poll keeps, when its dead letters become durable and it drops no spent record. -/
theorem Inv.polled (home : Home) (hmax : 0 < cfg.delivery.maxDeliver)
    (hlt : cfg.delivery.maxDeliver < 2 ^ 32 - 1) (hlog : Faithful content env)
    (hclock : w.clock ≤ env.nowUnixMillis) (hearliest : env.earliest ≤ w.group.cursor.committed)
    (h : Inv cfg content w) {e : PollEnd} {budget : RetryBudget}
    (hpolls : Polls cfg env w.group e g') (hspent : SpentInFront cfg content w.group) :
    Inv cfg content (w.polled home env true (e, budget, g')) := by
  obtain ⟨g₁, hquiet, hends, hstop⟩ := hpolls
  have hinv := h.tick hclock
  have hc := hinv.table.quiet hmax hlt hlog rfl hinv.history hquiet
  cases hends with
  | reset hmove =>
    cases hmove with
    | reset hlt _ =>
      -- the group is not behind the front of the log
      exact absurd (Quiet.committed_lt hquiet h.table.wf hlt) (not_lt_of_ge hearliest)
  | quiet hmsg hdead hmove =>
    have hc' := hc.move hmax hlt hlog rfl hinv.history hmove
    unfold World.polled
    split
    · rename_i d heq
      exact absurd heq (hmsg d)
    · rename_i heq
      exact absurd heq (hdead _ _ _ _)
    · exact ⟨⟨hinv.history.due, hinv.history.limit⟩, hc'.wf, hc'.counted, hc'.stash⟩
  | @handed _ _ d hmove =>
    cases hmove with
    | handStash hd =>
      -- a match that waits has its delivery counted already
      obtain ⟨hdue, hstash⟩ := hc.stash d hd
      refine Inv.hand ⟨hinv.history.due, hinv.history.limit⟩ hdue
        (fun hset => ((hstash hset).1).trans (hstash hset).2)
        ⟨hc.wf, hc.counted, fun _ hd' => nomatch hd'⟩ (fun hset => (hstash hset).1)
        fun _ hd' => nomatch hd'
    | @hand o n token leases router r hg hr ready hk =>
      -- the grant counts this delivery
      obtain ⟨heq, hle, hdue, hhanded⟩ := hc.granted hmax hlt hlog rfl hg hr ready
      have hclaimed := claim_granted hg.claim
      have hatt : leases.attempts o = n := hclaimed.attempts_self
      have hhanded : w.settled o = false → w.handed o + 1 ≤ n := hhanded
      refine Inv.hand ⟨hinv.history.due, hinv.history.limit⟩ hdue
        (fun hset => (hhanded hset).trans hle)
        ⟨hc.wf, hc.grant hg fun hset _ => Nat.le_of_succ_le (hhanded hset),
          fun d hd => ⟨(hc.stash d hd).1, fun hset => ?_⟩⟩
        (fun hset => hatt ▸ hhanded hset) fun d hd ho hset => ?_
      · obtain ⟨hge, hle'⟩ := (hc.stash d hd).2 hset
        by_cases ho : d.offset = o
        · show w.handed d.offset + 1 ≤ leases.attempts d.offset ∧ leases.attempts d.offset ≤ _
          rw [ho] at hset ⊢
          rw [hatt]
          exact ⟨hhanded hset, hle⟩
        · show w.handed d.offset + 1 ≤ leases.attempts d.offset ∧ leases.attempts d.offset ≤ _
          rw [hclaimed.attempts_of_ne ho]
          exact ⟨hge, hle'⟩
      · obtain ⟨hge, -⟩ := (hc.stash d hd).2 (ho ▸ hset)
        rw [ho] at hge
        show w.handed o + 2 ≤ leases.attempts o
        have : w.handed o + 1 ≤ g₁.leases.attempts o := hge
        omega
  | @parked _ _ o n r reason hmove =>
    cases hmove with
    | park hopen hr hl hk =>
      -- the record is settled, so only the counts of the others matter
      obtain ⟨hwf, hset⟩ := hc.wf.ack o
      refine Inv.settle ⟨hinv.history.due, hinv.history.limit⟩ ?_
        (fun o' hne hset' hacked hsp => ?_)
        fun d hd => ?_
      · rw [(deadLetterPast_spec home o _).1]
        exact hwf
      · rw [(deadLetterPast_spec home o _).1] at hacked
        rw [(deadLetterPast_spec home o _).2.1]
        show w.handed o' ≤ attempts _ o'
        rw [hl.attempts_of_ne hne]
        exact hc.counted o' hset' (unacked_of_subset (fun x hx => (hset x).mpr (.inl hx)) hacked)
          hsp
      · rw [(deadLetterPast_spec home o _).2.2] at hd
        rw [(deadLetterPast_spec home o _).2.1]
        refine ⟨(hc.stash d hd).1, fun hne hset' => ?_⟩
        show _ ≤ attempts _ d.offset ∧ attempts _ d.offset ≤ _
        rw [hl.attempts_of_ne hne]
        exact (hc.stash d hd).2 hset'
  | @stashed _ _ start d hmove =>
    cases hmove with
    | @stash o n token leases r hg hp hr ready =>
      obtain ⟨heq, hle, hdue, hhanded⟩ := hc.granted hmax hlt hlog rfl hg hr ready
      have hclaimed := claim_granted hg.claim
      have hatt : leases.attempts o = n := hclaimed.attempts_self
      refine ⟨⟨hinv.history.due, hinv.history.limit⟩, hc.wf,
        hc.grant hg fun hset _ => Nat.le_of_succ_le (hhanded hset), fun d hd => ?_⟩
      obtain rfl := Option.some.inj hd
      exact ⟨hdue, fun hset => ⟨hatt ▸ hhanded hset, hatt ▸ hle⟩⟩
  | @dropped _ _ start stop hmove =>
    cases hmove with
    | drop hg hp hr hwanted hn =>
      -- the run began at a record the filter drops, and both were open before the poll
      obtain ⟨hatt, hlt, g₀, hq₀, hfilter₀, hopen₀, r₀, hr₀, hout⟩ := hstop start stop rfl
      have hpat {g₂ : WorkGroup} (h : g₂.filter = w.group.filter) :
          g₂.pattern = w.group.pattern := by
        rw [pattern, pattern, h]
      have hdeliver := hspent start stop hlt
        (unacked_of_subset (Quiet.advances hq₀ h.table.wf).mono hopen₀.unacked)
        (unacked_of_subset (Quiet.advances hquiet h.table.wf).mono hg.unacked)
        (by rw [← hlog.record start r₀ hr₀, ← hpat hfilter₀, hout])
        (by rw [← hlog.record stop _ hr, ← hpat (Quiet.filter_eq hquiet), hwanted])
      rw [← hatt, ← (claim_granted hg.claim).deliveries_eq, hn] at hdeliver
      cases hdeliver

/-! ## Settling -/

theorem attempts_ack_of_ne (t : LeaseTable) (token : LeaseToken) (ho : o ≠ token.offset) :
    (t.ack token).2.attempts o = t.attempts o := by
  unfold LeaseTable.ack
  cases t.owned token with
  | none => rfl
  | some lease => simp only [attempts, NatMap.get_erase_of_ne ho]

theorem Inv.acked (h : Inv cfg content w) (now : Nat) (token : LeaseToken) :
    Inv cfg content (w.acked cfg now token) := by
  have hsame {c : AckCursor} (hsub : w.group.cursor.acked ⊆ c.acked) (o : Nat)
      (ho : o ≠ token.offset) (hset : w.settled o = false) (hacked : c.isAcked o = false)
      (hsp : spoiled cfg w.clock (content o) = false) :
      w.handed o ≤ (w.group.leases.ack token).2.attempts o := by
    rw [attempts_ack_of_ne _ _ ho]
    exact h.table.counted o hset (unacked_of_subset hsub hacked) hsp
  have hstash (d : Delivery) (hd : w.group.pendingMatch = some d) :
      recordIsUndue w.clock (content d.offset) = false
        ∧ (d.offset ≠ token.offset → w.settled d.offset = false →
          w.handed d.offset + 1 ≤ (w.group.leases.ack token).2.attempts d.offset
            ∧ (w.group.leases.ack token).2.attempts d.offset ≤ cfg.delivery.maxDeliver) := by
    refine ⟨(h.table.stash d hd).1, fun ho hset => ?_⟩
    rw [attempts_ack_of_ne _ _ ho]
    exact (h.table.stash d hd).2 hset
  unfold World.acked
  rcases ackIn_cases cfg now token w.group with ⟨-, heq⟩ | ⟨-, -, heq⟩ | ⟨-, hb, heq⟩
  · rw [heq]
    exact .regroup h.history (h.table.congr rfl (fun _ => rfl) rfl)
  · rw [heq]
    exact .settle h.history h.table.wf (hsame subset_rfl) hstash
  · rw [heq]
    rcases AckCursor.ackBounded_cases h.table.wf token.offset cfg.maxAckedAheadRuns with
      ⟨hc, -⟩ | ⟨hc, -⟩ | ⟨c', hc, -, hwf, hset⟩
    · rw [hc]
      exact .settle h.history h.table.wf (hsame subset_rfl) hstash
    · rw [hc] at hb
      exact absurd rfl hb
    · rw [hc]
      exact .settle h.history hwf (hsame (hset ▸ Set.subset_union_left)) hstash

theorem Counted.nacked (h : Counted cfg content w g) (now : Nat) (token : LeaseToken)
    (delayMs : Nat) : Counted cfg content w (g.nackIn cfg now token delayMs).2 := by
  obtain ⟨d, heq, -⟩ := nackIn_eq cfg now token delayMs g
  rw [heq]
  exact h.congr rfl (nack_relet ..).attempts rfl

theorem Counted.progressed (h : Counted cfg content w g) (now : Nat) (token : LeaseToken) :
    Counted cfg content w (g.progressIn now token).2 := by
  rw [(progressIn_eq now token g).1]
  exact h.congr rfl (extend_relet ..).attempts rfl

theorem Counted.paused (h : Counted cfg content w g) (now pauseMs : Nat) :
    Counted cfg content w (g.applyPause now pauseMs).2 := by
  have hsettled := h.settled now
  unfold applyPause
  simp only
  split
  · split
    · exact hsettled.congr rfl (attempts_shiftDeadlines _ _) rfl
    · exact hsettled
  · split
    · exact hsettled.congr rfl (fun _ => rfl) rfl
    · exact hsettled.congr rfl (fun _ => rfl) rfl

/-! ## Restarting -/

/-- A clean restart gives the cursor back, counts at least what was counted before, and forgets a
match that waits. -/
theorem restart_spec (hwf : g.cursor.Wf) (hclean : CleanRestart env g)
    (hlive : ((checkpointed g).restart cfg env).live = some g') :
    g'.cursor = g.cursor ∧ g'.pendingMatch = none
      ∧ ∀ o, g.cursor.committed ≤ o → g.leases.attempts o ≤ g'.leases.attempts o := by
  have hcursor := resumeCursorFromSnapshot_snapshotPayload hwf hclean.runs hclean.committed_le
    hclean.ahead_le
  simp only [checkpointed, GroupSlot.writeGroupCheckpoint, GroupSlot.writeGroupAttempts,
    hclean.durable, GroupSlot.restart, GroupSlot.reopenNamedStream, GroupSlot.recovered, hcursor,
    Bool.false_eq_true, if_false, Option.isNone_some, Bool.false_and, Option.some.injEq] at hlive
  subst hlive
  refine ⟨rfl, rfl, fun o hle => ?_⟩
  rcases Nat.eq_zero_or_pos (g.leases.attempts o) with h0 | hpos
  · rw [h0]
    exact Nat.zero_le _
  · obtain ⟨n, hn, hmem, huniq⟩ := exists_mem_allAttemptCounts g.leases hpos
    have hkeep : attemptsSnapshotPayload g.leases.allAttemptCounts = g.leases.allAttemptCounts :=
      List.take_of_length_le hclean.counts
    have hget : ((resume g.cursor cfg.lease env.now).leases.resumeAttempts
        (resumeAttemptsFromSnapshot (some (attemptsSnapshotPayload g.leases.allAttemptCounts))
          g.cursor.committed env.flushed)).carried.get o = some n := by
      rw [hkeep]
      refine resumeAttempts_carried (by omega) (.inl ?_) fun m hm =>
        huniq m (List.mem_filter.mp hm).1
      refine List.mem_filter.mpr ⟨hmem, ?_⟩
      simp [hle, hclean.attempts_lt o hpos]
    exact hn.trans (Nat.le_of_eq (congrArg (·.getD 0) hget).symm)

theorem Inv.restart (h : Inv cfg content w) (hclean : CleanRestart env w.group)
    (hlive : ((checkpointed w.group).restart cfg env).live = some g) :
    Inv cfg content { w with group := g } := by
  obtain ⟨hcursor, hmatch, hatt⟩ := restart_spec h.table.wf hclean hlive
  refine .regroup h.history ⟨hcursor ▸ h.table.wf, fun o hset hacked hsp => ?_, fun d hd => ?_⟩
  · rw [hcursor] at hacked
    exact (h.table.counted o hset hacked hsp).trans (hatt o (h.table.wf.isLeast.2 hacked))
  · rw [hmatch] at hd
    cases hd

end Lemmas

/-! ## Whole runs -/

section Runs

variable [Checksums]

theorem Step.inv {home : Home} {cfg : EngineConfig} {content : Nat → OwnedRecord} {w w' : World}
    (hmax : 0 < cfg.delivery.maxDeliver) (hlt : cfg.delivery.maxDeliver < 2 ^ 32 - 1)
    (h : Step home cfg content w w') (hinv : Inv (home.config cfg) content w) :
    Inv (home.config cfg) content w' := by
  have hdelivery : (home.config cfg).delivery = cfg.delivery := by cases home <;> rfl
  cases h with
  | poll env member hlog hclock hearliest hspent =>
    have hspent' : SpentInFront (home.config cfg) content w.group := by
      cases home <;> exact hspent
    exact hinv.polled home (hdelivery ▸ hmax) (hdelivery ▸ hlt) hlog hclock hearliest
      (pollInStream_polls home cfg env member w.budget w.group) hspent'
  | ack now token =>
    have := hinv.acked now token
    cases home <;> exact this
  | nack now token delayMs =>
    have := hinv.table.nacked now token delayMs
    cases home <;> exact .regroup hinv.history this
  | progress now token => exact .regroup hinv.history (hinv.table.progressed now token)
  | pause now pauseMs => exact .regroup hinv.history (hinv.table.paused now pauseMs)
  | mode g hcursor hleases hmatch =>
    exact .regroup hinv.history (hinv.table.congr hcursor (fun _ => by rw [hleases]) hmatch)
  | restart env g hclean hlive =>
    refine hinv.restart hclean ?_
    cases home <;> exact hlive

end Runs

/-! ## One record -/

section OneRecord

local instance : Checksums := ⟨castagnoli, fun _ => 0⟩

/-- One delivery, a lease of ten nanoseconds. -/
def limitOne : EngineConfig := .leaseOfTen 1 0

def onlyRecord : OwnedRecord := ⟨0, 0, 0, 0, [], [], [7], [], []⟩

/-- A log with one record. -/
def oneRecordEnv (now : Nat) : PollEnv :=
  ⟨0, 1, fun o => .ok (if o = 0 then some onlyRecord else none), now, 0⟩

/-- Polls at an instant, with or without room in the dead-letter target. -/
def World.pollAt (now : Nat) (durable : Bool) (w : World) : World :=
  w.polled .default (oneRecordEnv now) durable
    (w.group.pollInStream .default limitOne (oneRecordEnv now) none w.budget)

end OneRecord

end DeliveryLimit

end IronBus
