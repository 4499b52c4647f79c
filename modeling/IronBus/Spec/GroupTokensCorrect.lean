import IronBus.Spec.GroupSlotCorrect

/-!
# A group accepts a token only from the last delivery of its record

Inside one lease table generations only grow, so a newer delivery fences every older token. The
broker also replaces whole tables: when it finds the log truncated, and when a group or its stream
was evicted and comes back. A new table counts generations from zero, so an old token is safe only
if its record can never be delivered again. That is the condition of a run here: whenever a table
is replaced, the new cursor covers every offset that was delivered before.

Key results:
- `Reach.inv`: every offset handed out is buried, or its tokens are in order
- `accepted_is_last`: a token that is accepted is the last one of its offset
-/

namespace IronBus

open LeaseTable GroupSlot WorkGroup List

namespace GroupTokens

/-! ## Runs -/

/-- A group, and the tokens its deliveries returned. -/
structure World where
  slot : GroupSlot
  budget : RetryBudget
  /-- The durable head the log has shown. -/
  head : Nat
  /-- The tokens handed out, oldest first. -/
  handed : List LeaseToken

namespace World

def start (slot : GroupSlot) (budget : RetryBudget) (head : Nat) : World := ⟨slot, budget, head, []⟩

def withGroup (w : World) (g : WorkGroup) : World :=
  { w with slot := { w.slot with live := some g } }

/-- The world after a poll. A record to dead-letter is passed once its copies are `durable`. -/
def polled (home : Home) (env : PollEnv) (durable : Bool) (w : World)
    (res : PollEnd × RetryBudget × WorkGroup) : World :=
  let w := { w.withGroup res.2.2 with budget := res.2.1, head := env.flushed }
  match res.1 with
  | .ok (.message d) => { w with handed := w.handed ++ [d.token] }
  | .deadLetter o _ _ _ => if durable then w.withGroup (res.2.2.deadLetterPast home o) else w
  | _ => w

end World

/-- A call that shows a token. -/
inductive Call where
  | ack (now : Nat)
  | nack (now delayMs : Nat)
  | term (env : PollEnv) (written : Except EngineError Unit)
  | progress (now : Nat)

/-- The group after a call. -/
def Call.apply (cfg : EngineConfig) (token : LeaseToken) (g : WorkGroup) : Call → WorkGroup
  | .ack now => (g.ackIn cfg now token).2
  | .nack now delayMs => (g.nackIn cfg now token delayMs).2
  | .term env written => (g.termIn cfg env written token).2
  | .progress now => (g.progressIn now token).2

/-- The call is accepted. -/
def Call.Accepted (cfg : EngineConfig) (token : LeaseToken) (g : WorkGroup) : Call → Prop
  | .ack now => (g.ackIn cfg now token).1 = .acked
  | .nack now delayMs => (g.nackIn cfg now token delayMs).1 = .ok .requeued
  | .term env written => (g.termIn cfg env written token).1 = .ok .acked
  | .progress now => (g.progressIn now token).1 = .extended

/-- A delivery that was drawn under one generation goes to the client under another. -/
def reseal (o drawn shared : Nat) (t : LeaseToken) : LeaseToken :=
  { t with generation := if t.offset = o ∧ t.generation = drawn then shared else t.generation }

/-- The offsets delivered so far are all acknowledged in a cursor. -/
def Covers (c : AckCursor) (handed : List LeaseToken) : Prop :=
  ∀ t ∈ handed, c.isAcked t.offset = true

section Steps

variable [Checksums]

/-- The steps of a group. -/
inductive Step (home : Home) (cfg : EngineConfig) : World → World → Prop where
  | poll {w : World} {g : WorkGroup} (env : PollEnv) (member : Option MemberId) (durable : Bool)
    (hlive : w.slot.live = some g) (hhead : w.head ≤ env.flushed) (hwidth : env.flushed ≤ u64Max)
    (hearliest : env.earliest ≤ env.flushed)
    -- a reset leaves nothing that was delivered before above the new cursor
    (hreset : g.cursor.committed < env.earliest → Covers (.resume env.earliest) w.handed)
    -- the key-shared loop of the default stream does not run while a match of the plain one waits
    (hstash : home = .default → member ≠ none → g.keyOrdering = .keyShared →
      g.pendingMatch = none) :
    Step home cfg w (w.polled home env durable (g.pollInStream home cfg env member w.budget))
  /-- A client shows a token that some delivery returned. -/
  | call {w : World} {g : WorkGroup} (token : LeaseToken) (call : Call)
    (hlive : w.slot.live = some g) (htoken : token ∈ w.handed) :
    Step home cfg w (w.withGroup (call.apply cfg token g))
  /-- One record of a run that a session sends in one frame. -/
  | reseal {w : World} {g : WorkGroup} (o drawn shared : Nat) (hlive : w.slot.live = some g)
    (hmem : ⟨o, drawn⟩ ∈ w.handed) (hle : shared ≤ drawn)
    -- nobody else was given the record between the first claim of the run and its own
    (hrun : ∀ t ∈ w.handed, t.offset = o → t.generation < shared ∨ drawn ≤ t.generation) :
    Step home cfg w { w.withGroup { g with leases := (g.leases.resealFromTo o drawn shared).2 } with
      handed := w.handed.map (reseal o drawn shared) }
  | cumulativeAck {w : World} {g : WorkGroup} (env : PollEnv) (upTo : Nat)
    (hlive : w.slot.live = some g) (hwidth : env.flushed ≤ u64Max) :
    Step home cfg w (w.withGroup (g.cumulativeAckIn env upTo).2)
  | pause {w : World} {g : WorkGroup} (now pauseMs : Nat) (hlive : w.slot.live = some g) :
    Step home cfg w (w.withGroup (g.applyPause now pauseMs).2)
  /-- Filter, ordering, broadcast, streaming and membership changes. -/
  | mode {w : World} {g : WorkGroup} (g' : WorkGroup) (hlive : w.slot.live = some g)
    (hcursor : g'.cursor = g.cursor) (hleases : g'.leases = g.leases)
    (hmatch : g'.pendingMatch = g.pendingMatch) : Step home cfg w (w.withGroup g')
  | checkpoint {w : World} : Step home cfg w { w with slot := w.slot.checkpointGroup }
  | evictIdle {w : World} {g : WorkGroup} (name : Name) (flushed now window : Nat)
    (ghost : GhostPolicy) (hhome : home = .default) (hlive : w.slot.live = some g)
    (hhead : w.head ≤ flushed) (hidle : isEvictable name g flushed now window = true) :
    Step home cfg w { w with slot := w.slot.evictGroup ghost, head := flushed }
  /-- A poll or a pause creates the idle group again, from its checkpoint. -/
  | ensure {w : World} (env : PollEnv) (hhome : home = .default) (hhead : w.head ≤ env.flushed)
    (hwidth : env.flushed ≤ u64Max) (hephemeral : w.slot.ephemeral = none) :
    Step home cfg w { w with slot := w.slot.ensureGroup cfg env, head := env.flushed }
  | evictStream {w : World} (hhome : home = .named) :
    Step home cfg w { w with slot := w.slot.evictNamedStream }
  | reopenStream {w : World} (env : PollEnv) (hhome : home = .named) (hlive : w.slot.live = none)
    (hwidth : env.flushed ≤ u64Max) (hcovers : Covers (w.slot.recovered cfg env).cursor w.handed) :
    Step home cfg w { w with slot := w.slot.reopenNamedStream cfg env }
  /-- Anything else creates the group with a new table at a position of its own: at offset zero, or
  where an ephemeral group was parked. -/
  | create {w : World} (c : AckCursor) (now : Nat) (ephemeral : Bool) (hlive : w.slot.live = none)
    (hwf : c.Wf) (hcovers : Covers c w.handed) :
    Step home cfg w (w.withGroup { resume c cfg.lease now with ephemeral := ephemeral })

def Reach (home : Home) (cfg : EngineConfig) : World → World → Prop :=
  Relation.ReflTransGen (Step home cfg)

end Steps

/-! ## The invariant -/

/-- The tokens handed out for an offset. -/
def tokensAt (o : Nat) (handed : List LeaseToken) : List LeaseToken :=
  handed.filter fun t => t.offset = o

/-- An offset that is never delivered again: it is acknowledged and has no lease. -/
structure Buried (g : WorkGroup) (o : Nat) : Prop where
  acked : g.cursor.isAcked o = true
  lease : g.leases.leases.get o = none

/-- Tokens of the current table, in the order of their generations; the lease, if there is one, is
not older than any of them. -/
structure Ordered (t : LeaseTable) (o : Nat) (tokens : List LeaseToken) : Prop where
  sorted : tokens.Pairwise fun a b => a.generation < b.generation
  drawn : ∀ a ∈ tokens, a.generation < t.nextGeneration
  le : ∀ a ∈ tokens, ∀ lease, t.leases.get o = some lease → a.generation ≤ lease.generation

/-- Every offset is buried, or all its tokens are of the current table. -/
structure Fenced (handed : List LeaseToken) (g : WorkGroup) : Prop where
  wf : g.cursor.Wf
  offsets : ∀ o, Buried g o ∨ Ordered g.leases o (tokensAt o handed)
  /-- A match that waits may be handed out next. -/
  stash : ∀ d, g.pendingMatch = some d → d.token.offset = d.offset
    ∧ (Buried g d.offset ∨ Ordered g.leases d.offset (tokensAt d.offset handed ++ [d.token]))

structure Inv (home : Home) (w : World) : Prop where
  below : ∀ t ∈ w.handed, t.offset < w.head
  live : ∀ g, w.slot.live = some g →
    Fenced w.handed g ∧ ∀ d, g.pendingMatch = some d → d.offset < w.head
  /-- While the group is idle its checkpoint is above everything it was given. -/
  idle : home = .default → w.slot.live = none →
    ∀ t ∈ w.handed, ∃ c, w.slot.cursorFile = some c ∧ t.offset < c.committed

section Lemmas

variable {cfg : EngineConfig} {env : PollEnv} {handed : List LeaseToken} {g g' : WorkGroup}

variable {o : Nat} {token : LeaseToken} {leases : LeaseTable}

theorem tokensAt_append (o : Nat) (l l' : List LeaseToken) :
    tokensAt o (l ++ l') = tokensAt o l ++ tokensAt o l' := filter_append ..

/-- A table that only moves on keeps the order. -/
theorem Ordered.moves {t t' : LeaseTable} {tokens : List LeaseToken} (h : Ordered t o tokens)
    (hm : Moves t t') : Ordered t' o tokens := by
  refine ⟨h.sorted, fun a ha => (h.drawn a ha).trans_le hm.next_le, fun a ha lease' hget => ?_⟩
  rcases hm.lease o lease' hget with ⟨lease, hget₀, hg⟩ | ⟨hle, -⟩
  · rw [hg]
    exact h.le a ha lease hget₀
  · exact (h.drawn a ha).le.trans hle

/-- A table that moves on and takes no lease for an acknowledged offset. -/
structure Moved (g g' : WorkGroup) : Prop where
  wf : g'.cursor.Wf
  acked : g.cursor.acked ⊆ g'.cursor.acked
  table : Moves g.leases g'.leases
  free : ∀ o, g.cursor.isAcked o = true → g.leases.leases.get o = none →
    g'.leases.leases.get o = none

theorem Moved.buried (h : Moved g g') (hb : Buried g o) : Buried g' o :=
  ⟨h.acked hb.acked, h.free o hb.acked hb.lease⟩

theorem Fenced.moved (h : Fenced handed g) (hm : Moved g g')
    (hmatch : g'.pendingMatch = g.pendingMatch ∨ g'.pendingMatch = none) : Fenced handed g' := by
  refine ⟨hm.wf, fun o => (h.offsets o).imp hm.buried fun ho => ho.moves hm.table, fun d hd => ?_⟩
  rcases hmatch with heq | heq
  · rw [heq] at hd
    obtain ⟨hoff, hord⟩ := h.stash d hd
    exact ⟨hoff, hord.imp hm.buried fun ho => ho.moves hm.table⟩
  · rw [heq] at hd
    cases hd

theorem Moved.same (hwf : g.cursor.Wf) (hcursor : g'.cursor = g.cursor)
    (hleases : g'.leases = g.leases) : Moved g g' :=
  ⟨hcursor ▸ hwf, hcursor ▸ subset_rfl, hleases ▸ .refl _, fun _ _ h => hleases ▸ h⟩

/-- Giving leases up moves the table on. -/
theorem Moved.of_settles (hwf : g'.cursor.Wf) (hsub : g.cursor.acked ⊆ g'.cursor.acked)
    (h : Settles g.leases g'.leases) : Moved g g' :=
  ⟨hwf, hsub, h.toMoves, fun o _ hget => h.free o hget⟩

theorem Granted.moved {n : Nat} (hg : Granted env g o token n leases)
    (hwf : g'.cursor.Wf) (hsub : g.cursor.acked ⊆ g'.cursor.acked) (hleases : g'.leases = leases) :
    Moved g g' := by
  refine ⟨hwf, hsub, ?_, fun o' hacked hget => ?_⟩
  · have := claim_moves g.leases o env.now
    rwa [hg.claim, ← hleases] at this
  · have hne : o' ≠ o := by
      rintro rfl
      rw [hg.unacked] at hacked
      cases hacked
    rw [hleases, hg.get_of_ne hne, hget]

theorem Freed.moved (h : Freed env g o leases) (hwf : g'.cursor.Wf)
    (hsub : g.cursor.acked ⊆ g'.cursor.acked) (hleases : g'.leases = leases) : Moved g g' := by
  rcases h with rfl | ⟨token, n, leases', hg, rfl⟩
  · exact ⟨hwf, hsub, hleases ▸ .refl _, fun _ _ h => hleases ▸ h⟩
  · have hm : Moved g { g' with leases := leases' } := Granted.moved hg hwf hsub rfl
    have hack := ack_settles leases' token
    exact ⟨hwf, hsub, hleases ▸ hm.table.trans hack.toMoves,
      fun o' hacked hget => hleases ▸ hack.free o' (hm.free o' hacked hget)⟩

theorem moved_pauseActive (hwf : g.cursor.Wf) (now : Nat) :
    Moved g (g.pauseActive now).2 ∧ (g.pauseActive now).2.pendingMatch = g.pendingMatch := by
  obtain ⟨leases, paused, heq, hsettles, -⟩ := g.pauseActive_eq now
  rw [heq]
  exact ⟨.of_settles hwf subset_rfl hsettles, rfl⟩

/-- A silent move takes no lease for an acknowledged offset and keeps a match that waits. -/
theorem moved_of_move (hwf : g.cursor.Wf) (hmove : Move cfg env g none g') :
    Moved g g' ∧ g'.pendingMatch = g.pendingMatch := by
  have hadv := (hmove.advances hwf).resolve_right nofun
  cases hmove with
  | stay => exact ⟨.same hwf rfl rfl, rfl⟩
  | touch => exact ⟨.same hwf rfl rfl, rfl⟩
  | settle => exact moved_pauseActive hwf env.now
  | retain => exact ⟨.same hwf rfl rfl, rfl⟩
  | defer o d =>
    exact ⟨.of_settles hwf subset_rfl (deferRedelivery_relet ..).settles, rfl⟩
  | strand hg hp => exact ⟨Granted.moved hg hwf subset_rfl rfl, rfl⟩
  | wait hg hp hr why => exact ⟨Freed.moved hg.freed hwf subset_rfl rfl, rfl⟩
  | passHole _ _ _ hl _ => exact ⟨Freed.moved hl hadv.wf hadv.mono rfl, rfl⟩
  | skip _ _ _ hl _ _ => exact ⟨Freed.moved hl hadv.wf hadv.mono rfl, rfl⟩

theorem Fenced.quiet (h : Fenced handed g) (hquiet : Quiet cfg env g g') :
    Fenced handed g' ∧ g'.pendingMatch = g.pendingMatch := by
  induction hquiet with
  | refl => exact ⟨h, rfl⟩
  | tail _ hmove ih =>
    obtain ⟨hm, hmatch⟩ := moved_of_move ih.1.wf hmove
    exact ⟨ih.1.moved hm (.inl hmatch), hmatch.trans ih.2⟩

/-- A grant for an offset that is not acknowledged comes last among its tokens. -/
theorem Fenced.granted (h : Fenced handed g) {n : Nat}
    (hg : Granted env g o token n leases) :
    token.offset = o ∧ Ordered leases o (tokensAt o handed ++ [token]) := by
  have hclaimed := claim_granted hg.claim
  obtain ⟨lease, hleases, hgen, -⟩ := hclaimed.lease
  have hord : Ordered g.leases o (tokensAt o handed) := by
    refine (h.offsets o).resolve_left fun hb => ?_
    have := hb.acked
    rw [hg.unacked] at this
    cases this
  have htoken : token.generation = g.leases.nextGeneration := by rw [hclaimed.token_eq]
  refine ⟨by rw [hclaimed.token_eq], ?_, fun a ha => ?_, fun a ha lease' hget => ?_⟩
  · refine pairwise_append.mpr ⟨hord.sorted, pairwise_singleton _ _, fun a ha b hb => ?_⟩
    rw [mem_singleton.mp hb, htoken]
    exact hord.drawn a ha
  · rw [hclaimed.next_eq]
    rcases mem_append.mp ha with ha | ha
    · exact (hord.drawn a ha).trans (Nat.lt_succ_self _)
    · rw [mem_singleton.mp ha, htoken]
      exact Nat.lt_succ_self _
  · rw [hleases, NatMap.get_insert_self] at hget
    obtain rfl := Option.some.inj hget
    rw [hgen]
    rcases mem_append.mp ha with ha | ha
    · exact (hord.drawn a ha).le
    · rw [mem_singleton.mp ha, htoken]

/-- Handing a token out that comes last among those of its offset. -/
theorem Fenced.hand (h : Fenced handed g)
    (htoken : Buried g token.offset
      ∨ Ordered g.leases token.offset (tokensAt token.offset handed ++ [token]))
    (hmatch : g.pendingMatch = none) : Fenced (handed ++ [token]) g := by
  refine ⟨h.wf, fun o => ?_, fun d hd => ?_⟩
  · rw [tokensAt_append]
    by_cases ho : token.offset = o
    · subst ho
      simpa [tokensAt] using htoken
    · have : tokensAt o [token] = [] := by simp [tokensAt, ho]
      rw [this, append_nil]
      exact h.offsets o
  · rw [hmatch] at hd
    cases hd

section Reseal

variable {o' drawn shared : Nat}

/-- The lease of an offset is resealed as its tokens are. -/
theorem get_resealFromTo {lease' : Lease}
    (h : (leases.resealFromTo o drawn shared).2.leases.get o' = some lease') :
    ∃ lease, leases.leases.get o' = some lease
      ∧ lease'.generation = (reseal o drawn shared ⟨o', lease.generation⟩).generation := by
  cases hget : leases.leases.get o with
  | none => grind [resealFromTo, owned, reseal, NatMap.get_insert_of_ne]
  | some lease =>
    grind [resealFromTo, owned, Option.filter, reseal, NatMap.get_insert_self,
      NatMap.get_insert_of_ne]

/-- Nothing was drawn between the generations of the run, so the order stays. -/
theorem Ordered.reseal {tokens : List LeaseToken} (h : Ordered leases o' tokens)
    (hle : shared ≤ drawn) (hoff : ∀ a ∈ tokens, a.offset = o')
    (hrun : ∀ a ∈ tokens, a.offset = o → a.generation < shared ∨ drawn ≤ a.generation) :
    Ordered (leases.resealFromTo o drawn shared).2 o' (tokens.map (reseal o drawn shared)) := by
  refine ⟨pairwise_map.mpr (h.sorted.imp_of_mem fun {a b} ha hb hlt => ?_),
    forall_mem_map.mpr fun a ha => ?_, forall_mem_map.mpr fun a ha lease' hget' => ?_⟩
  · have := hrun a ha
    grind [GroupTokens.reseal]
  · have := h.drawn a ha
    grind [GroupTokens.reseal, resealFromTo]
  · obtain ⟨lease, hget, hgen⟩ := get_resealFromTo hget'
    have hle' := h.le a ha lease hget
    have hrun' := hrun a ha
    grind [GroupTokens.reseal]

/-- Tokens and leases stay in order, also when somebody else has the lease. -/
theorem Fenced.reseal (h : Fenced handed g) (hmem : ⟨o, drawn⟩ ∈ handed) (hle : shared ≤ drawn)
    (hrun : ∀ t ∈ handed, t.offset = o → t.generation < shared ∨ drawn ≤ t.generation) :
    Fenced (handed.map (reseal o drawn shared))
      { g with leases := (g.leases.resealFromTo o drawn shared).2 } := by
  have hburied (o' : Nat) (hb : Buried g o') :
      Buried { g with leases := (g.leases.resealFromTo o drawn shared).2 } o' := by
    refine ⟨hb.acked, Option.eq_none_iff_forall_ne_some.mpr fun lease' hget' => ?_⟩
    obtain ⟨lease, hget, -⟩ := get_resealFromTo hget'
    exact Option.some_ne_none _ (hget.symm.trans hb.lease)
  have hat {o' : Nat} {a : LeaseToken} (ha : a ∈ tokensAt o' handed) : a ∈ handed ∧ a.offset = o' :=
    (mem_filter.mp ha).imp_right of_decide_eq_true
  have htokens (o' : Nat) : tokensAt o' (handed.map (GroupTokens.reseal o drawn shared))
      = (tokensAt o' handed).map (GroupTokens.reseal o drawn shared) := filter_map
  refine ⟨h.wf, fun o' => (h.offsets o').imp (hburied o') fun ho => ?_, fun d hd => ?_⟩
  · rw [htokens]
    exact ho.reseal hle (fun a ha => (hat ha).2) fun a ha => hrun a (hat ha).1
  · obtain ⟨hoff, hord⟩ := h.stash d hd
    refine ⟨hoff, hord.imp (hburied _) fun ho => ?_⟩
    -- a match that waits is younger than what was handed out
    have hyoung (hd : d.token.offset = o) : drawn < d.token.generation :=
      (pairwise_append.mp ho.sorted).2.2 ⟨o, drawn⟩
        (mem_filter.mpr ⟨hmem, by simp [← hd, hoff]⟩) _ mem_cons_self
    have hkeep : GroupTokens.reseal o drawn shared d.token = d.token := by
      rw [GroupTokens.reseal, if_neg fun h => (hyoung h.1).ne' h.2]
    have hord : Ordered (g.leases.resealFromTo o drawn shared).2 d.offset _ := ho.reseal hle
      (forall_mem_append.mpr ⟨fun a ha => (hat ha).2, forall_mem_singleton.mpr hoff⟩)
      (forall_mem_append.mpr ⟨fun a ha => hrun a (hat ha).1,
        forall_mem_singleton.mpr fun hd => .inr (hyoung hd).le⟩)
    rwa [map_append, map_singleton, hkeep, ← htokens] at hord

end Reseal

/-- A new table whose cursor covers everything that was handed out. -/
theorem Fenced.fresh (hwf : g.cursor.Wf) (hempty : ∀ o, g.leases.leases.get o = none)
    (hcovers : Covers g.cursor handed) (hmatch : g.pendingMatch = none) : Fenced handed g := by
  refine ⟨hwf, fun o => ?_, fun d hd => ?_⟩
  · rcases htokens : tokensAt o handed with _ | ⟨t, rest⟩
    · exact .inr ⟨.nil, fun _ ha => (nomatch ha), fun _ ha => (nomatch ha)⟩
    · have hmem : t ∈ tokensAt o handed := by rw [htokens]; exact mem_cons_self
      obtain ⟨ht, hoff⟩ := mem_filter.mp hmem
      refine .inl ⟨?_, hempty o⟩
      rw [← of_decide_eq_true hoff]
      exact hcovers t ht
  · rw [hmatch] at hd
    cases hd

/-! ## Polls -/

/-- The ends of a poll that started with no match waiting, other than a hand-out. -/
theorem Fenced.ends (h : Fenced handed g) {e : PollEnd} (hends : Ends cfg env e g g')
    (hwidth : env.earliest ≤ u64Max) (hmatch : g.pendingMatch = none)
    (hreset : g.cursor.committed < env.earliest → Covers (.resume env.earliest) handed) :
    (∃ d, e = .ok (.message d) ∧ d.offset < env.flushed ∧ d.token.offset = d.offset
        ∧ Fenced (handed ++ [d.token]) g' ∧ g'.pendingMatch = none)
      ∨ ((∀ d, e ≠ .ok (.message d)) ∧ Fenced handed g'
        ∧ ∀ d, g'.pendingMatch = some d → d.offset < env.flushed) := by
  have hnone {g₁ : WorkGroup} (heq : g₁.pendingMatch = g.pendingMatch) (d : Delivery)
      (hd : g₁.pendingMatch = some d) : d.offset < env.flushed := by
    rw [heq, hmatch] at hd
    cases hd
  cases hends with
  | reset hmove =>
    cases hmove with
    | reset hlt hk =>
      refine .inr ⟨nofun, ?_, hnone rfl⟩
      exact .fresh (AckCursor.resume_wf hwidth) (fun _ => rfl) (hreset hlt) hmatch
  | handed hmove =>
    cases hmove with
    | handStash hd =>
      rw [hmatch] at hd
      cases hd
    | @hand o n token leases router r hg hr ready hk =>
      obtain ⟨hoff, hord⟩ := h.granted hg
      refine .inl ⟨_, rfl, hg.below, hoff, ?_, hmatch⟩
      have hm : Moved g { g with leases := leases, router := router } :=
        Granted.moved hg h.wf subset_rfl rfl
      exact (h.moved hm (.inl rfl)).hand (.inr (by rw [hoff]; exact hord)) hmatch
  | parked hmove =>
    cases hmove with
    | park hopen hr hl hk =>
      exact .inr ⟨nofun, h.moved (Freed.moved hl h.wf subset_rfl rfl) (.inl rfl), hnone rfl⟩
  | stashed hmove =>
    cases hmove with
    | @stash o n token leases r hg hp hr ready =>
      obtain ⟨hoff, hord⟩ := h.granted hg
      have hm : Moved g { g with leases := leases, pendingMatch := some ⟨o, token, n, r⟩ } :=
        Granted.moved hg h.wf subset_rfl rfl
      refine .inr ⟨nofun,
        ⟨h.wf, fun o => (h.offsets o).imp hm.buried fun ho => ho.moves hm.table, fun d hd => ?_⟩,
        fun d hd => ?_⟩
      · obtain rfl := Option.some.inj hd
        exact ⟨hoff, .inr hord⟩
      · obtain rfl := Option.some.inj hd
        exact hg.below
  | dropped hmove =>
    cases hmove with
    | drop hg hp hr hwanted hn =>
      exact .inr ⟨nofun, h.moved (Freed.moved hg.freed h.wf subset_rfl rfl) (.inl rfl), hnone rfl⟩
  | quiet hmsg hdead hmove =>
    obtain ⟨hm, heq⟩ := moved_of_move h.wf hmove
    exact .inr ⟨hmsg, h.moved hm (.inl heq), hnone heq⟩

/-- A poll that finds a match waiting hands it out, unless the group is paused. -/
theorem pollInStream_stash [Checksums] {home : Home} {member : Option MemberId} {d : Delivery}
    (cfg : EngineConfig) (env : PollEnv) (budget : RetryBudget) (hmatch : g.pendingMatch = some d)
    (hmode : home = .default → member = none ∨ g.keyOrdering = .none) :
    ∃ g₁, g₁ = ((g.touch env.now).pauseActive env.now).2
      ∧ (g.pollInStream home cfg env member budget = (.ok .idle, budget, g₁)
        ∨ g.pollInStream home cfg env member budget
          = (.ok (.message d), budget, { g₁ with pendingMatch := none })) := by
  refine ⟨_, rfl, ?_⟩
  rcases hwake : (g.touch env.now).pauseActive env.now with ⟨paused, g₁⟩
  have hkeep : g₁.pendingMatch = some d := by
    obtain ⟨leases, paused, heq, -⟩ := (g.touch env.now).pauseActive_eq env.now
    rw [hwake] at heq
    rw [show g₁ = _ from heq]
    exact hmatch
  cases home with
  | default =>
    have htimed : g.pollInStream .default cfg env member budget = g.pollTimed cfg env budget := by
      rcases hmode rfl with rfl | hplain
      · rfl
      · cases member with
        | none => rfl
        | some m => simp only [pollInStream, pollInMember, hplain]
    rw [htimed]
    cases paused with
    | true => exact .inl (by simp only [pollTimed, hwake])
    | false => exact .inr (by simp only [pollTimed, hwake, hkeep])
  | named =>
    cases paused with
    | true => exact .inl (by simp only [pollInStream, pollNamed, hwake])
    | false => exact .inr (by simp only [pollInStream, pollNamed, hwake, hkeep])

theorem moved_wake (hwf : g.cursor.Wf) (now : Nat) :
    Moved g ((g.touch now).pauseActive now).2
      ∧ ((g.touch now).pauseActive now).2.pendingMatch = g.pendingMatch := by
  obtain ⟨hm, heq⟩ := moved_pauseActive (g := g.touch now) hwf now
  exact ⟨⟨hm.wf, hm.acked, hm.table, hm.free⟩, heq⟩

/-- What a poll does: it hands a token out that comes last, or none. -/
theorem Fenced.pollInStream [Checksums] (h : Fenced handed g) (home : Home) (cfg : EngineConfig)
    (member : Option MemberId) (budget : RetryBudget) (hwidth : env.earliest ≤ u64Max)
    (hstash : home = .default → member ≠ none → g.keyOrdering = .keyShared →
      g.pendingMatch = none)
    (hreset : g.cursor.committed < env.earliest → Covers (.resume env.earliest) handed)
    (hbelow : ∀ d, g.pendingMatch = some d → d.offset < env.flushed) :
    let res := g.pollInStream home cfg env member budget
    (∃ d, res.1 = .ok (.message d) ∧ d.offset < env.flushed ∧ d.token.offset = d.offset
        ∧ Fenced (handed ++ [d.token]) res.2.2 ∧ res.2.2.pendingMatch = none)
      ∨ ((∀ d, res.1 ≠ .ok (.message d)) ∧ Fenced handed res.2.2
        ∧ ∀ d, res.2.2.pendingMatch = some d → d.offset < env.flushed) := by
  intro res
  cases hmatch : g.pendingMatch with
  | none =>
    obtain ⟨g₁, hquiet, hends, -⟩ := pollInStream_polls home cfg env member budget g
    obtain ⟨h₁, heq⟩ := h.quiet hquiet
    exact h₁.ends hends hwidth (heq.trans hmatch)
      fun hlt => hreset (Quiet.committed_lt hquiet h.wf hlt)
  | some d =>
    have hmode : home = .default → member = none ∨ g.keyOrdering = .none := fun hd => by
      by_contra hne
      obtain ⟨hmember, hordering⟩ := not_or.mp hne
      have hshared : g.keyOrdering = .keyShared := by
        cases hk : g.keyOrdering with
        | none => exact absurd hk hordering
        | keyShared => rfl
      rw [hstash hd hmember hshared] at hmatch
      cases hmatch
    obtain ⟨hm, heq⟩ := moved_wake h.wf env.now
    obtain ⟨g₁, rfl, hres | hres⟩ := pollInStream_stash cfg env budget hmatch hmode
    · have : res = _ := hres
      rw [this]
      exact .inr ⟨nofun, h.moved hm (.inl heq), fun d' hd' => hbelow d' (heq ▸ hd')⟩
    · have : res = _ := hres
      rw [this]
      obtain ⟨hoff, hord⟩ := (h.moved hm (.inl heq)).stash d (heq.trans hmatch)
      refine .inl ⟨d, rfl, hbelow d hmatch, hoff, ?_, rfl⟩
      have hopen : Fenced handed { ((g.touch env.now).pauseActive env.now).2 with
          pendingMatch := none } := (h.moved hm (.inl heq)).moved (.same hm.wf rfl rfl) (.inr rfl)
      refine hopen.hand ?_ rfl
      rw [hoff]
      exact hord.imp (fun hb => ⟨hb.acked, hb.lease⟩) id

/-! ## Settling -/

theorem moved_ackIn (cfg : EngineConfig) (hwf : g.cursor.Wf) (now : Nat) (token : LeaseToken) :
    Moved g (g.ackIn cfg now token).2
      ∧ (g.ackIn cfg now token).2.pendingMatch = g.pendingMatch
      ∧ ((g.ackIn cfg now token).1 = .acked → g.leases.owned token ≠ none) := by
  rcases g.ackIn_cases cfg now token with ⟨-, heq⟩ | ⟨howned, -, heq⟩ | ⟨howned, hshed, heq⟩
  · rw [heq]
    exact ⟨.same hwf rfl rfl, rfl, nofun⟩
  · rw [heq]
    exact ⟨.of_settles hwf subset_rfl (ack_settles _ _), rfl, fun _ => howned⟩
  · rw [heq]
    obtain ⟨hwf', hsub⟩ := hwf.ackBounded token.offset cfg.maxAckedAheadRuns
    exact ⟨.of_settles hwf' hsub (ack_settles _ _), rfl, fun _ => howned⟩

theorem moved_applyPause (hwf : g.cursor.Wf) (now pauseMs : Nat) :
    Moved g (g.applyPause now pauseMs).2
      ∧ (g.applyPause now pauseMs).2.pendingMatch = g.pendingMatch := by
  obtain ⟨hm, heq⟩ := moved_pauseActive hwf now
  unfold applyPause
  simp only
  split
  · split
    · have hshift := shiftDeadlines_settles (g.pauseActive now).2.leases
      exact ⟨⟨hm.wf, hm.acked, hm.table.trans (hshift _).toMoves,
        fun o hacked hget => (hshift _).free o (hm.free o hacked hget)⟩, heq⟩
    · exact ⟨hm, heq⟩
  · split
    · exact ⟨⟨hm.wf, hm.acked, hm.table, hm.free⟩, heq⟩
    · exact ⟨⟨hm.wf, hm.acked, hm.table, hm.free⟩, heq⟩

theorem moved_cumulativeAckIn (hwf : g.cursor.Wf) (hwidth : env.flushed ≤ u64Max) (upTo : Nat) :
    Moved g (g.cumulativeAckIn env upTo).2
      ∧ (g.cumulativeAckIn env upTo).2.pendingMatch = g.pendingMatch := by
  unfold cumulativeAckIn
  split_ifs with hplain hrange
  · exact ⟨.same hwf rfl rfl, rfl⟩
  · exact ⟨.same hwf rfl rfl, rfl⟩
  · obtain ⟨hwf', hset⟩ := AckCursor.commitUpTo_spec hwf (u := upTo) (by omega)
    refine ⟨⟨hwf', hset ▸ Set.subset_union_left, releaseBelow_moves _ _, fun o _ hget => ?_⟩, rfl⟩
    show (g.leases.releaseBelow upTo).leases.get o = none
    rw [releaseBelow, NatMap.get_filterKeys, hget]
    split <;> rfl

/-- A call that shows a token moves the table on, and is accepted only for the owner of a lease. -/
theorem Call.moved (call : Call) (hwf : g.cursor.Wf) (token : LeaseToken) :
    Moved g (call.apply cfg token g) ∧ (call.apply cfg token g).pendingMatch = g.pendingMatch
      ∧ (call.Accepted cfg token g → g.leases.owned token ≠ none) := by
  cases call with
  | ack now => exact moved_ackIn cfg hwf now token
  | nack now delayMs =>
    obtain ⟨d, heq, howned⟩ := g.nackIn_eq cfg now token delayMs
    rw [Call.apply, heq]
    exact ⟨.of_settles hwf subset_rfl (nack_relet ..).settles, rfl, howned⟩
  | term env written =>
    obtain ⟨hm, hmatch, howned⟩ := moved_ackIn cfg hwf env.now token
    rw [Call.apply, Call.Accepted]
    rcases g.termIn_cases cfg env written token with heq | ⟨heq, hne⟩
    · rw [heq]
      exact ⟨hm, hmatch, fun h => howned (Except.ok.inj h)⟩
    · rw [heq]
      exact ⟨.same hwf rfl rfl, rfl, fun h => absurd h hne⟩
  | progress now =>
    obtain ⟨heq, howned⟩ := g.progressIn_eq now token
    rw [Call.apply, heq]
    refine ⟨.of_settles hwf subset_rfl (extend_relet ..).settles, rfl, fun h => howned ?_⟩
    rw [Call.Accepted] at h
    rw [h]
    exact nofun

/-- The token of an owned lease is the last of its offset. -/
theorem Fenced.last (h : Fenced handed g) (hmem : token ∈ handed)
    (howned : g.leases.owned token ≠ none) :
    ∃ l, tokensAt token.offset handed = l ++ [token] ∧ token ∉ l := by
  obtain ⟨lease, howned⟩ := Option.ne_none_iff_exists'.mp howned
  obtain ⟨hget, hgen⟩ := owned_eq_some howned
  rcases h.offsets token.offset with hb | hord
  · have := hb.lease
    rw [hget] at this
    cases this
  · have hin : token ∈ tokensAt token.offset handed := mem_filter.mpr ⟨hmem, by simp⟩
    obtain ⟨l, rest, heq⟩ := append_of_mem hin
    have hsorted := hord.sorted
    rw [heq, pairwise_append, pairwise_cons] at hsorted
    obtain ⟨-, ⟨hrest, -⟩, hl⟩ := hsorted
    refine ⟨l, ?_, fun hin => lt_irrefl _ (hl token hin token mem_cons_self)⟩
    -- nothing is younger than the token that owns the lease
    cases rest with
    | nil => exact heq
    | cons a rest =>
      have hlt := hrest a mem_cons_self
      have hle := hord.le a (by rw [heq]; simp) lease hget
      omega

end Lemmas

/-! ## Whole runs -/

section Runs

variable {home : Home} {cfg : EngineConfig} {w w' : World}

variable {g : WorkGroup}

/-- The invariant with a group that only moved on. -/
theorem Inv.regroup {g' : WorkGroup} (h : Inv home w) (hlive : w.slot.live = some g)
    (hm : Moved g g') (heq : g'.pendingMatch = g.pendingMatch) : Inv home (w.withGroup g') := by
  obtain ⟨hf, hb⟩ := h.live g hlive
  refine ⟨h.below, fun g₁ hg₁ => ?_, fun _ hidle => nomatch hidle⟩
  obtain rfl := Option.some.inj hg₁
  exact ⟨hf.moved hm (.inl heq), fun d hd => hb d (heq ▸ hd)⟩

/-- A call that shows a token. -/
theorem Inv.call (h : Inv home w) (hlive : w.slot.live = some g) (token : LeaseToken)
    (call : Call) : Inv home (w.withGroup (call.apply cfg token g)) := by
  obtain ⟨hm, heq, -⟩ := call.moved (h.live g hlive).1.wf token
  exact h.regroup hlive hm heq

theorem Inv.checkpoint (h : Inv home w) : Inv home { w with slot := w.slot.checkpointGroup } := by
  cases hlive : w.slot.live with
  | none => rwa [checkpointGroup_of_none hlive]
  | some g =>
    obtain ⟨n, heq⟩ := checkpointGroup_live hlive
    obtain ⟨hf, hb⟩ := h.live g hlive
    refine ⟨h.below, fun g' hg' => ?_, fun _ hidle => ?_⟩
    · rw [heq] at hg'
      obtain rfl := Option.some.inj hg'
      exact ⟨hf.moved
        ⟨hf.wf, subset_rfl, ⟨le_rfl, fun _ lease hget => .inl ⟨lease, hget, rfl⟩⟩,
        fun _ _ hget => hget⟩ (.inl rfl), hb⟩
    · rw [heq] at hidle
      cases hidle

theorem Inv.evictIdle (h : Inv home w) (hlive : w.slot.live = some g) (name : Name)
    {flushed now window : Nat} (ghost : GhostPolicy) (hhead : w.head ≤ flushed)
    (hidle : isEvictable name g flushed now window = true) :
    Inv home { w with slot := w.slot.evictGroup ghost, head := flushed } := by
  obtain ⟨hgone, hfile, hcommitted⟩ := evictGroup_idle hlive ghost hidle
  refine ⟨fun t ht => (h.below t ht).trans_le hhead, fun g' hg' => ?_,
    fun _ _ t ht => ⟨_, hfile, ?_⟩⟩
  · rw [hgone] at hg'
    cases hg'
  · rw [snapshotPayload_committed, hcommitted]
    exact (h.below t ht).trans_le hhead

/-- A group that is new, with a cursor that covers everything that was delivered. -/
theorem Inv.fresh (h : Inv home w) {head : Nat} (hhead : w.head ≤ head) (hwf : g.cursor.Wf)
    (hempty : ∀ o, g.leases.leases.get o = none) (hcovers : Covers g.cursor w.handed)
    (hmatch : g.pendingMatch = none) {slot : GroupSlot} (hslot : slot.live = some g) :
    Inv home { w with slot := slot, head := head } := by
  refine ⟨fun t ht => (h.below t ht).trans_le hhead, fun g' hg' => ?_, fun _ hidle => ?_⟩
  · obtain rfl := Option.some.inj (hslot.symm.trans hg')
    refine ⟨.fresh hwf hempty hcovers hmatch, fun d hd => ?_⟩
    rw [hmatch] at hd
    cases hd
  · have : slot.live = none := hidle
    rw [hslot] at this
    cases this

/-- The idle group comes back with everything that was delivered below its checkpoint. -/
theorem Inv.ensure (h : Inv .default w) (env : PollEnv) (hhead : w.head ≤ env.flushed)
    (hwidth : env.flushed ≤ u64Max) (hephemeral : w.slot.ephemeral = none) :
    Inv .default { w with slot := w.slot.ensureGroup cfg env, head := env.flushed } := by
  cases hlive : w.slot.live with
  | some g =>
    rw [ensureGroup, hlive]
    refine ⟨fun t ht => (h.below t ht).trans_le hhead, fun g' hg' => ?_, fun _ hidle => ?_⟩
    · obtain ⟨hf, hb⟩ := h.live g' hg'
      exact ⟨hf, fun d hd => (hb d hd).trans_le hhead⟩
    · have : w.slot.live = none := hidle
      rw [hlive] at this
      cases this
  | none =>
    have hcovers : Covers (w.slot.recovered cfg env).cursor w.handed := fun t ht => by
      obtain ⟨c, hfile, hlt⟩ := h.idle rfl hlive t ht
      have hcommitted := recovered_committed cfg env w.slot
      rw [hfile, Option.map_some, Option.getD_some] at hcommitted
      have hlt' : t.offset < (w.slot.recovered cfg env).cursor.committed := by
        have := h.below t ht
        omega
      simp [AckCursor.isAcked, hlt']
    refine h.fresh hhead (recovered_wf cfg w.slot hwidth)
      (recovered_leases cfg env w.slot) hcovers rfl ?_
    rw [ensureGroup, hlive, hephemeral]

theorem Inv.evictStream (h : Inv .named w) :
    Inv .named { w with slot := w.slot.evictNamedStream } := by
  refine ⟨h.below, fun g hg => ?_, fun hhome => nomatch hhome⟩
  have hnone : w.slot.evictNamedStream.live = none := by
    unfold evictNamedStream
    cases w.slot.live <;> rfl
  rw [hnone] at hg
  cases hg

theorem Inv.reopenStream (h : Inv .named w) (env : PollEnv)
    (hwidth : env.flushed ≤ u64Max) (hcovers : Covers (w.slot.recovered cfg env).cursor w.handed) :
    Inv .named { w with slot := w.slot.reopenNamedStream cfg env } := by
  unfold reopenNamedStream
  split
  · exact h
  · exact h.fresh le_rfl (recovered_wf cfg w.slot hwidth)
      (recovered_leases cfg env w.slot) hcovers rfl rfl

section Polls

variable [Checksums]

theorem Inv.polled {g : WorkGroup} (h : Inv home w) (env : PollEnv) (member : Option MemberId)
    (durable : Bool) (hlive : w.slot.live = some g) (hhead : w.head ≤ env.flushed)
    (hwidth : env.flushed ≤ u64Max) (hearliest : env.earliest ≤ env.flushed)
    (hreset : g.cursor.committed < env.earliest → Covers (.resume env.earliest) w.handed)
    (hstash : home = .default → member ≠ none → g.keyOrdering = .keyShared →
      g.pendingMatch = none) :
    Inv home (w.polled home env durable (g.pollInStream home cfg env member w.budget)) := by
  obtain ⟨hfenced, hmatch⟩ := h.live g hlive
  have hbelow : ∀ t ∈ w.handed, t.offset < env.flushed := fun t ht => (h.below t ht).trans_le hhead
  have hpoll := hfenced.pollInStream home cfg member w.budget (hearliest.trans hwidth) hstash hreset
    fun d hd => (hmatch d hd).trans_le hhead
  rcases hres : g.pollInStream home cfg env member w.budget with ⟨e, budget, g'⟩
  rw [hres] at hpoll
  rcases hpoll with ⟨d, rfl, hlt, hoff, hf, hnone⟩ | ⟨hmsg, hf, hb⟩
  · refine ⟨fun t ht => ?_, fun g₁ hg₁ => ?_, fun _ hidle => nomatch hidle⟩
    · rcases mem_append.mp ht with ht | ht
      · exact hbelow t ht
      · rw [mem_singleton.mp ht, hoff]
        exact hlt
    · obtain rfl := Option.some.inj hg₁
      refine ⟨hf, fun d' hd' => ?_⟩
      rw [hnone] at hd'
      cases hd'
  · have hkeep : Inv home { w.withGroup g' with budget := budget, head := env.flushed } :=
      ⟨hbelow, fun g₁ hg₁ => by obtain rfl := Option.some.inj hg₁; exact ⟨hf, hb⟩,
        fun _ hidle => nomatch hidle⟩
    cases e with
    | error e => exact hkeep
    | ok p =>
      cases p with
      | message d => exact absurd rfl (hmsg d)
      | _ => exact hkeep
    | deadLetter o n r reason =>
      cases durable with
      | false => exact hkeep
      | true =>
        obtain ⟨hcursor, hleases, heq⟩ := g'.deadLetterPast_spec home o
        obtain ⟨hwf, hset⟩ := hf.wf.ack o
        have hm : Moved g' (g'.deadLetterPast home o) :=
          ⟨hcursor ▸ hwf, fun x hx => by rw [hcursor]; exact (hset x).mpr (.inl hx),
            hleases ▸ .refl _, fun _ _ hget => hleases ▸ hget⟩
        exact hkeep.regroup rfl hm heq

theorem Step.inv (h : Step home cfg w w') (hinv : Inv home w) : Inv home w' := by
  cases h with
  | poll env member durable hlive hhead hwidth hearliest hreset hstash =>
    exact hinv.polled env member durable hlive hhead hwidth hearliest hreset hstash
  | call token call hlive _ => exact hinv.call hlive token call
  | reseal o drawn shared hlive hmem hle hrun =>
    obtain ⟨hf, hb⟩ := hinv.live _ hlive
    refine ⟨fun t ht => ?_, fun g' hg' => ?_, fun _ hidle => nomatch hidle⟩
    · obtain ⟨t₀, ht₀, rfl⟩ := mem_map.mp ht
      exact hinv.below t₀ ht₀
    · obtain rfl := Option.some.inj hg'
      exact ⟨hf.reseal hmem hle hrun, hb⟩
  | cumulativeAck env upTo hlive hwidth =>
    obtain ⟨hm, heq⟩ := moved_cumulativeAckIn (hinv.live _ hlive).1.wf hwidth upTo
    exact hinv.regroup hlive hm heq
  | pause now pauseMs hlive =>
    obtain ⟨hm, heq⟩ := moved_applyPause (hinv.live _ hlive).1.wf now pauseMs
    exact hinv.regroup hlive hm heq
  | mode g' hlive hcursor hleases hmatch =>
    exact hinv.regroup hlive (.same (hinv.live _ hlive).1.wf hcursor hleases) hmatch
  | checkpoint => exact hinv.checkpoint
  | evictIdle name flushed now window ghost _ hlive hhead hidle =>
    exact hinv.evictIdle hlive name ghost hhead hidle
  | ensure env hhome hhead hwidth hephemeral =>
    subst hhome
    exact hinv.ensure env hhead hwidth hephemeral
  | evictStream hhome =>
    subst hhome
    exact hinv.evictStream
  | reopenStream env hhome _ hwidth hcovers =>
    subst hhome
    exact hinv.reopenStream env hwidth hcovers
  | create c now ephemeral hlive hwf hcovers =>
    exact hinv.fresh le_rfl hwf (fun _ => rfl) hcovers rfl rfl

theorem Reach.inv (h : Reach home cfg w w') (hinv : Inv home w) : Inv home w' := by
  induction h with
  | refl => exact hinv
  | tail _ hstep ih => exact hstep.inv ih

end Polls

/-- Before anything was delivered. -/
theorem Inv.start (slot : GroupSlot) (budget : RetryBudget) (head : Nat)
    (hlive : slot.live = none) :
    Inv home (World.start slot budget head) := by
  refine ⟨nofun, fun g hg => ?_, fun _ _ => nofun⟩
  have : slot.live = some g := hg
  rw [hlive] at this
  cases this

/-- In every run that starts before the group exists, a token that is accepted was returned by the
last delivery of its record, and by no earlier one. -/
theorem accepted_is_last [Checksums] (home : Home) (cfg : EngineConfig) (slot : GroupSlot)
    (budget : RetryBudget) (head : Nat) (hlive : slot.live = none) {w : World}
    (hreach : Reach home cfg (World.start slot budget head) w) {g : WorkGroup}
    (hg : w.slot.live = some g) (token : LeaseToken) (hmem : token ∈ w.handed) (call : Call)
    (haccepted : call.Accepted cfg token g) :
    ∃ l, tokensAt token.offset w.handed = l ++ [token] ∧ token ∉ l := by
  obtain ⟨hf, -⟩ := (hreach.inv (.start slot budget head hlive)).live g hg
  obtain ⟨-, -, howned⟩ := call.moved hf.wf token
  exact hf.last hmem (howned haccepted)

end Runs

/-! ## Two records -/

section TwoRecords

local instance : Checksums := ⟨castagnoli, fun _ => 0⟩

/-- No delivery limit, a lease of ten nanoseconds. -/
def noLimit : EngineConfig := .leaseOfTen 0 0

/-- A log with two records, of which the first ones may be reaped. -/
def twoRecordsEnv (earliest now : Nat) : PollEnv :=
  ⟨earliest, 2, fun o => .ok (if o < 2 then some ⟨o, 0, 0, 0, [], [], [7], [], []⟩ else none), now,
    0⟩

def noBudget : RetryBudget := ⟨0, 0, 0, 0, 0, none⟩

/-- The group exists and has nothing yet. -/
def opened : World :=
  { World.start .empty noBudget 0 with
    slot := empty.ensureGroup noLimit (twoRecordsEnv 0 0), head := 2 }

/-- A poll of the default stream, by a member or by nobody in particular. -/
def World.pollAt (member : Option MemberId) (earliest now : Nat) (w : World) : World :=
  match w.slot.live with
  | none => w
  | some g => w.polled .default (twoRecordsEnv earliest now) true
      (g.pollInStream .default noLimit (twoRecordsEnv earliest now) member w.budget)

/-- The group is put in key-shared mode, and gets a member. -/
def World.shared (member : MemberId) (w : World) : World :=
  match w.slot.live with
  | none => w
  | some g => w.withGroup ((g.setKeyOrdering .keyShared).joinMember member)

def World.callAt (token : LeaseToken) (call : Call) (w : World) : World :=
  match w.slot.live with
  | none => w
  | some g => w.withGroup (call.apply noLimit token g)

/-- An acknowledgement with the token is accepted. -/
def World.ackAccepted (token : LeaseToken) (now : Nat) (w : World) : Bool :=
  match w.slot.live with
  | none => false
  | some g => (g.ackIn noLimit now token).1 = .acked

/-- A step of a live group, given what it does to the group. -/
theorem step_of_live {w w' : World}
    (h : ∀ g, w.slot.live = some g → Step .default noLimit w w') (hlive : w.slot.live.isSome) :
    Step .default noLimit w w' := by
  obtain ⟨g, hg⟩ := Option.isSome_iff_exists.mp hlive
  exact h g hg

theorem pollAt_step {w : World} (member : Option MemberId) (now : Nat) (hhead : w.head ≤ 2)
    (hmatch : w.slot.live.map (·.pendingMatch) = some none) :
    Step .default noLimit w (w.pollAt member 0 now) := by
  refine step_of_live (fun g hg => ?_) ?_
  · rw [hg] at hmatch
    rw [World.pollAt, hg]
    exact .poll (twoRecordsEnv 0 now) member true hg hhead (show 2 ≤ u64Max by decide)
      (Nat.zero_le _)
      (fun h => absurd h (Nat.not_lt_zero _)) fun _ _ _ => Option.some.inj hmatch
  · cases hg : w.slot.live with
    | none =>
      rw [hg] at hmatch
      cases hmatch
    | some g => rfl

/-- A member of the key-shared group is given the first record, gives it back, and is given it
again. -/
def redelivered : World :=
  (((opened.shared 5).pollAt (some 5) 0 0).callAt ⟨0, 0⟩ (.nack 1 0)).pollAt (some 5) 0 20

theorem reach_redelivered :
    Reach .default noLimit (World.start .empty noBudget 0) redelivered := by
  have hopen : Step .default noLimit (World.start .empty noBudget 0) opened :=
    .ensure (twoRecordsEnv 0 0) rfl (Nat.zero_le _) (by decide) rfl
  have hshare : Step .default noLimit opened (opened.shared 5) := by
    refine step_of_live (fun g hg => ?_) rfl
    rw [World.shared, hg]
    exact .mode _ hg rfl rfl rfl
  have hnack : Step .default noLimit ((opened.shared 5).pollAt (some 5) 0 0)
      (((opened.shared 5).pollAt (some 5) 0 0).callAt ⟨0, 0⟩ (.nack 1 0)) := by
    refine step_of_live (fun g hg => ?_) (by decide +kernel)
    rw [World.callAt, hg]
    exact .call ⟨0, 0⟩ (.nack 1 0) hg (by decide +kernel)
  exact (((Relation.ReflTransGen.single hopen).tail hshare).tail
    (pollAt_step (some 5) 0 (by decide +kernel) (by decide +kernel)) |>.tail hnack).tail
    (pollAt_step (some 5) 20 (by decide +kernel) (by decide +kernel))

/-- The token of the second delivery is accepted and that of the first is not. -/
theorem accepted_is_last_redelivered :
    redelivered.handed = [⟨0, 0⟩, ⟨0, 2⟩] ∧ redelivered.ackAccepted ⟨0, 0⟩ 21 = false
      ∧ ∃ g, redelivered.slot.live = some g ∧ Call.Accepted noLimit ⟨0, 2⟩ g (.ack 21)
        ∧ ∃ l, tokensAt 0 redelivered.handed = l ++ [⟨0, 2⟩] ∧ ⟨0, 2⟩ ∉ l := by
  refine ⟨by decide +kernel, by decide +kernel, ?_⟩
  obtain ⟨g, hg⟩ : ∃ g, redelivered.slot.live = some g :=
    Option.isSome_iff_exists.mp (by decide +kernel)
  have haccepted : Call.Accepted noLimit ⟨0, 2⟩ g (.ack 21) := by
    have : redelivered.ackAccepted ⟨0, 2⟩ 21 = true := by decide +kernel
    rw [World.ackAccepted, hg] at this
    have hacked : (g.ackIn noLimit 21 ⟨0, 2⟩).1 = .acked := of_decide_eq_true this
    exact hacked
  exact ⟨g, hg, haccepted, accepted_is_last .default noLimit .empty noBudget 0 rfl
    reach_redelivered hg ⟨0, 2⟩ (by decide +kernel) (.ack 21) haccepted⟩

/-- The two records are delivered, then the first is reaped and the group starts over with a new
table. The second record is delivered again and given back, so its lease has the generation that
its first delivery had: the token of that delivery acknowledges the record. -/
theorem old_token_accepted :
    let w := (((opened.pollAt none 0 0).pollAt none 0 0).pollAt none 1 1).pollAt none 1 1
    let nacked := w.callAt ⟨1, 0⟩ (.nack 2 0)
    w.handed = [⟨0, 0⟩, ⟨1, 1⟩, ⟨1, 0⟩] ∧ nacked.handed = w.handed
      ∧ nacked.ackAccepted ⟨1, 1⟩ 3 = true := by
  decide +kernel

end TwoRecords

end GroupTokens

end IronBus
