import IronBus.Native.WorkGroup
import IronBus.Spec.CursorCorrect
import IronBus.Spec.LeaseCorrect

/-!
# What a poll can do to a group

Every branch of the three delivery loops is one of a few moves: it leaves the group alone, passes
an offset for good, claims one and hands it out, keeps it, or gives it up. The invariants of a group
are proved by cases on the moves, not on the loops.

Key results:
- `pollInStream_polls`: a poll is a run of silent moves and a last move that its answer reports
- `Polls.advances`, `Polls.no_lease`: what it passes; it leases nothing past the durable head
-/

namespace IronBus

open Scan LeaseTable NatMap

/-! ## Passing offsets -/

namespace AckCursor

variable {c : AckCursor}

/-- An acknowledgement without a cap adds its offset; the exhausted last offset is never added. -/
theorem Wf.ack (h : c.Wf) (o : Nat) :
    (c.ack o).2.Wf ∧ ∀ x, x ∈ (c.ack o).2.acked ↔ x ∈ c.acked ∨ (x = o ∧ o < u64Max) := by
  have hshed := ackBounded_usizeMax_ne_shed h o
  rw [AckCursor.ack]
  rcases ackBounded_cases h o usizeMax with ⟨heq, hdup⟩ | ⟨heq, -⟩ | ⟨c', heq, hlt, hwf, hset⟩
  · rw [heq]
    refine ⟨h, fun x => ⟨.inl, ?_⟩⟩
    rintro (hx | ⟨rfl, hlt⟩)
    · exact hx
    · exact hdup.resolve_right (Nat.not_le_of_lt hlt)
  · rw [heq] at hshed
    exact absurd rfl hshed
  · rw [heq]
    refine ⟨hwf, fun x => ?_⟩
    rw [hset, Set.mem_union, Set.mem_singleton_iff]
    exact or_congr_right ⟨fun hx => ⟨hx, hlt⟩, And.left⟩

/-- An acknowledgement takes nothing back, capped or not. -/
theorem Wf.ackBounded (h : c.Wf) (o maxRuns : Nat) :
    (c.ackBounded o maxRuns).2.Wf ∧ c.acked ⊆ (c.ackBounded o maxRuns).2.acked := by
  rcases ackBounded_cases h o maxRuns with ⟨heq, -⟩ | ⟨heq, -⟩ | ⟨c', heq, -, hwf, hset⟩
  · rw [heq]
    exact ⟨h, subset_rfl⟩
  · rw [heq]
    exact ⟨h, subset_rfl⟩
  · rw [heq]
    exact ⟨hwf, hset ▸ Set.subset_union_left⟩

/-- Passing a range adds its offsets. -/
theorem Wf.ackRange (h : c.Wf) (start stop : Nat) :
    (c.ackRange start stop).Wf ∧ ∀ x, x ∈ (c.ackRange start stop).acked
      ↔ x ∈ c.acked ∨ (start ≤ x ∧ x < stop ∧ x < u64Max) := by
  unfold AckCursor.ackRange
  generalize hn : stop - start = n
  induction n generalizing c start with
  | zero =>
    refine ⟨h, fun x => ⟨.inl, ?_⟩⟩
    rintro (hx | ⟨hle, hlt, -⟩)
    · exact hx
    · omega
  | succ n ih =>
    obtain ⟨hwf, hset⟩ := h.ack start
    obtain ⟨hwf', hset'⟩ := ih hwf (start + 1) (by omega)
    refine ⟨hwf', fun x => ?_⟩
    rw [List.range'_succ, List.foldl_cons, hset', hset, or_assoc]
    refine or_congr_right ?_
    omega

theorem resume_wf {o : Nat} (h : o ≤ u64Max) : (resume o).Wf :=
  ⟨trivial, h, fun _ hr => nomatch hr⟩

theorem isAcked_resume {o : Nat} (h : o ≤ u64Max) (x : Nat) :
    (resume o).isAcked x = true ↔ x < o := by
  rw [(resume_wf h).isAcked_iff]
  exact or_iff_left fun ⟨_, hr, _⟩ => nomatch hr

end AckCursor

/-! ## Claims -/

namespace LeaseTable

/-- How often an offset was claimed, as far as the table knows. -/
def attempts (t : LeaseTable) (o : Nat) : Nat :=
  match t.leases.get o with
  | some lease => lease.deliveries
  | none => (t.carried.get o).getD 0

/-- What a granted claim leaves. -/
structure Claimed (t : LeaseTable) (o : Nat) (token : LeaseToken) (n : Nat) (t' : LeaseTable) :
    Prop where
  token_eq : token = ⟨o, t.nextGeneration⟩
  deliveries_eq : n = saturatingAddU32 (t.attempts o) 1
  next_eq : t'.nextGeneration = t.nextGeneration + 1
  config_eq : t'.config = t.config
  lease : ∃ lease, t'.leases = t.leases.insert o lease ∧ lease.generation = t.nextGeneration
    ∧ lease.deliveries = n
  carried_eq : ∀ o', o' ≠ o → t'.carried.get o' = t.carried.get o'

variable {t t' : LeaseTable} {o now n : Nat} {token : LeaseToken}

theorem grant_claimed (t : LeaseTable) (o now next : Nat) (hnext : next = t.nextGeneration + 1) :
    ∃ n, (t.grant o now next).1 = .granted ⟨o, t.nextGeneration⟩ n
      ∧ t.Claimed o ⟨o, t.nextGeneration⟩ n (t.grant o now next).2 := by
  unfold grant
  cases hget : t.leases.get o with
  | some lease =>
    refine ⟨_, rfl, rfl, ?_, hnext, rfl, ⟨_, rfl, rfl, rfl⟩, fun o' _ => rfl⟩
    simp only [attempts, hget]
  | none =>
    refine ⟨_, rfl, rfl, ?_, hnext, rfl, ⟨_, rfl, rfl, rfl⟩, fun o' ho' => ?_⟩
    · simp only [attempts, hget]
      cases t.carried.get o with
      | none => rfl
      | some prior => rfl
    · exact get_erase_of_ne ho'

theorem claim_granted (h : t.claim o now = (.granted token n, t')) : t.Claimed o token n t' := by
  unfold claim at h
  split at h
  · cases h
  cases hnext : checkedAdd t.nextGeneration 1 with
  | none =>
    rw [hnext] at h
    cases h
  | some next =>
    simp only [hnext] at h
    obtain ⟨n', heq, hclaimed⟩ := grant_claimed t o now next (checkedAdd_eq_some hnext)
    rw [h] at heq hclaimed
    cases heq
    exact hclaimed

/-- The token of a grant owns the lease the grant put down, so releasing it drops that lease. -/
theorem Claimed.ack_eq (h : t.Claimed o token n t') :
    t'.ack token = (.acked, { t' with leases := t'.leases.erase o }) := by
  obtain ⟨lease, hleases, hg, -⟩ := h.lease
  have howned : t'.owned token = some lease := by
    rw [owned, hleases, h.token_eq, get_insert_self]
    simp [Option.filter, hg]
  rw [ack, howned, h.token_eq]

/-- Away from its offset a claim counts nothing. -/
theorem Claimed.attempts_of_ne {o' : Nat} (h : t.Claimed o token n t') (ho : o' ≠ o) :
    t'.attempts o' = t.attempts o' := by
  obtain ⟨lease, hleases, -⟩ := h.lease
  rw [attempts, attempts, hleases, get_insert_of_ne ho, h.carried_eq o' ho]

theorem Claimed.attempts_self (h : t.Claimed o token n t') : t'.attempts o = n := by
  obtain ⟨lease, hleases, -, hn⟩ := h.lease
  rw [attempts, hleases, get_insert_self]
  exact hn

theorem Claimed.release_attempts_of_ne {o' : Nat} (h : t.Claimed o token n t') (ho : o' ≠ o) :
    (t'.ack token).2.attempts o' = t.attempts o' := by
  rw [h.ack_eq, ← h.attempts_of_ne ho]
  simp only [attempts, get_erase_of_ne ho]

theorem Relet.attempts (h : t.Relet t') (o : Nat) : t'.attempts o = t.attempts o := by
  cases h with
  | same => rfl
  | @lease o' _ _ _ hget hd _ =>
    by_cases ho : o = o'
    · subst ho
      simp only [attempts, get_insert_self, hget, hd]
    · simp only [attempts, get_insert_of_ne ho]

theorem attempts_shiftDeadlines (t : LeaseTable) (d o : Nat) :
    (t.shiftDeadlines d).attempts o = t.attempts o := by
  simp only [attempts, shiftDeadlines, get_map]
  cases t.leases.get o <;> rfl

end LeaseTable

/-- The settings a poll of a stream goes by: a named stream has no dead-lettering on expiry. -/
def Home.config (home : Home) (cfg : EngineConfig) : EngineConfig :=
  match home with
  | .default => cfg
  | .named => { cfg with deadLetterExpired := false }

namespace WorkGroup

/-! ## The moves -/

/-- What the last move of a poll reports. -/
inductive Note where
  /-- The group starts over at the earliest retained record. -/
  | reset
  | handed (d : Delivery)
  | parked (offset deliveries : Nat) (record : OwnedRecord) (reason : DeadLetterReason)
  /-- The match behind a filtered run waits for the next poll. -/
  | stashed (d : Delivery)
  /-- A spent record behind a filtered run loses its lease, and nothing else happens to it. -/
  | dropped (offset : Nat)

/-- An offset the loop may stop at: it is durable and not acknowledged. -/
structure Open (env : PollEnv) (g : WorkGroup) (o : Nat) : Prop where
  below : o < env.flushed
  unacked : g.cursor.isAcked o = false

/-- An open offset is claimed. -/
structure Granted (env : PollEnv) (g : WorkGroup) (o : Nat) (token : LeaseToken) (n : Nat)
    (leases : LeaseTable) : Prop extends Open env g o where
  claim : g.leases.claim o env.now = (.granted token n, leases)

/-- The log has the record of an offset. -/
structure Reads (env : PollEnv) (o : Nat) (r : OwnedRecord) : Prop where
  read : env.read o = .ok (some r)
  offset : r.offset = o

/-- The leases behind a visit that gives its offset up: untouched, or claimed and released. -/
def Freed (env : PollEnv) (g : WorkGroup) (o : Nat) (leases : LeaseTable) : Prop :=
  leases = g.leases ∨ ∃ token n leases', Granted env g o token n leases'
    ∧ leases = (leases'.ack token).2

/-- The router as it was, or without the key of an offset. -/
def Cleared (g : WorkGroup) (o : Nat) (router : Option KeyRouter) : Prop :=
  router = g.router ∨ router = g.router.map (·.clearOffset o)

/-- A record is passed for good: it has expired, or the filter does not want it. -/
def Unwanted (cfg : EngineConfig) (env : PollEnv) (g : WorkGroup) (r : OwnedRecord) : Prop :=
  (recordIsExpired cfg.defaultMessageTtl env.nowUnixMillis r = true
      ∧ cfg.deadLettersExpired = false)
    ∨ filteredOut g.pattern r = true

/-- A record has to wait for its due time, or waits to be dead-lettered because it has expired. -/
def Waiting (cfg : EngineConfig) (env : PollEnv) (r : OwnedRecord) : Prop :=
  recordIsUndue env.nowUnixMillis r = true
    ∨ (recordIsExpired cfg.defaultMessageTtl env.nowUnixMillis r = true
      ∧ cfg.deadLettersExpired = true)

/-- A record may go out: it is due, does not wait to be dead-lettered, and its limit is not
spent. -/
structure Ready (cfg : EngineConfig) (env : PollEnv) (r : OwnedRecord) (n : Nat) : Prop where
  due : recordIsUndue env.nowUnixMillis r = false
  fresh : cfg.deadLettersExpired = true →
    recordIsExpired cfg.defaultMessageTtl env.nowUnixMillis r = false
  within : cfg.delivery.disposition n = .deliver

/-- One thing a poll does to its group, and what it lets out. While a match waits for the next
poll, only the key-shared loop runs, and it gives a lease up only to park its record. -/
inductive Move (cfg : EngineConfig) (env : PollEnv) :
    WorkGroup → Option Note → WorkGroup → Prop where
  | stay (g : WorkGroup) : Move cfg env g none g
  | touch (g : WorkGroup) : Move cfg env g none (g.touch env.now)
  | settle (g : WorkGroup) : Move cfg env g none (g.pauseActive env.now).2
  | retain (g : WorkGroup) : Move cfg env g none (g.retainKeys g.cursor.committed)
  | reset {g : WorkGroup} {router : Option KeyRouter} (h : g.cursor.committed < env.earliest)
    (hk : router = g.router ∨ router = g.router.map (·.retainAbove env.earliest)) :
    Move cfg env g (some .reset) { g.resetTo cfg env.earliest with router := router }
  | defer (g : WorkGroup) (o d : Nat) :
    Move cfg env g none { g with leases := (g.leases.deferRedelivery o env.now d).2 }
  /-- The record of a claimed offset could not be read. -/
  | strand {g : WorkGroup} {o n : Nat} {token : LeaseToken} {leases : LeaseTable}
    (hg : Granted env g o token n leases) (hp : g.pendingMatch = none) :
    Move cfg env g none { g with leases := leases }
  | wait {g : WorkGroup} {o n : Nat} {token : LeaseToken} {leases : LeaseTable} {r : OwnedRecord}
    (hg : Granted env g o token n leases) (hp : g.pendingMatch = none) (hr : Reads env o r)
    (why : Waiting cfg env r) :
    Move cfg env g none { g with leases := (leases.ack token).2 }
  | drop {g : WorkGroup} {o n : Nat} {token : LeaseToken} {leases : LeaseTable} {r : OwnedRecord}
    (hg : Granted env g o token n leases) (hp : g.pendingMatch = none) (hr : Reads env o r)
    (hwanted : filteredOut g.pattern r = false) (hn : cfg.delivery.disposition n = .deadLetter) :
    Move cfg env g (some (.dropped o)) { g with leases := (leases.ack token).2 }
  | passHole {g : WorkGroup} {o : Nat} {leases : LeaseTable} {r : OwnedRecord}
    (hopen : Open env g o) (hread : env.read o = .ok (some r)) (hne : r.offset ≠ o)
    (hl : Freed env g o leases) (hp : g.pendingMatch = none ∨ leases = g.leases) :
    Move cfg env g none
      { g with leases := leases, cursor := g.cursor.ackRange o r.offset }
  | skip {g : WorkGroup} {o : Nat} {leases : LeaseTable} {router : Option KeyRouter}
    {r : OwnedRecord} (hopen : Open env g o) (hr : Reads env o r)
    (why : Unwanted cfg env g r) (hl : Freed env g o leases) (hk : Cleared g o router)
    (hp : g.pendingMatch = none ∨ leases = g.leases) :
    Move cfg env g none
      { g with leases := leases, router := router, cursor := (g.cursor.ack o).2 }
  | park {g : WorkGroup} {o n : Nat} {leases : LeaseTable} {router : Option KeyRouter}
    {r : OwnedRecord} {reason : DeadLetterReason} (hopen : Open env g o)
    (hr : Reads env o r) (hl : Freed env g o leases) (hk : Cleared g o router) :
    Move cfg env g (some (.parked o n r reason)) { g with leases := leases, router := router }
  | stash {g : WorkGroup} {o n : Nat} {token : LeaseToken} {leases : LeaseTable} {r : OwnedRecord}
    (hg : Granted env g o token n leases) (hp : g.pendingMatch = none) (hr : Reads env o r)
    (ready : Ready cfg env r n) :
    Move cfg env g (some (.stashed ⟨o, token, n, r⟩))
      { g with leases := leases, pendingMatch := some ⟨o, token, n, r⟩ }
  | handStash {g : WorkGroup} {d : Delivery} (h : g.pendingMatch = some d) :
    Move cfg env g (some (.handed d)) { g with pendingMatch := none }
  | hand {g : WorkGroup} {o n : Nat} {token : LeaseToken} {leases : LeaseTable}
    {router : Option KeyRouter} {r : OwnedRecord}
    (hg : Granted env g o token n leases) (hr : Reads env o r) (ready : Ready cfg env r n)
    (hk : router = g.router ∨ router = g.router.map (·.markInFlight r.key o)) :
    Move cfg env g (some (.handed ⟨o, token, n, r⟩)) { g with leases := leases, router := router }

/-- Any number of silent moves. -/
def Quiet (cfg : EngineConfig) (env : PollEnv) : WorkGroup → WorkGroup → Prop :=
  Relation.ReflTransGen fun g g' => Move cfg env g none g'

/-- The last move of a poll and the answer that reports it. -/
inductive Ends (cfg : EngineConfig) (env : PollEnv) :
    PollEnd → WorkGroup → WorkGroup → Prop where
  | reset {g g' : WorkGroup} {skipped : Nat} (h : Move cfg env g (some .reset) g') :
    Ends cfg env (.ok (.truncated env.earliest skipped)) g g'
  | handed {g g' : WorkGroup} {d : Delivery} (h : Move cfg env g (some (.handed d)) g') :
    Ends cfg env (.ok (.message d)) g g'
  | parked {g g' : WorkGroup} {o n : Nat} {r : OwnedRecord} {reason : DeadLetterReason}
    (h : Move cfg env g (some (.parked o n r reason)) g') :
    Ends cfg env (.deadLetter o n r reason) g g'
  | stashed {g g' : WorkGroup} {start : Nat} {d : Delivery}
    (h : Move cfg env g (some (.stashed d)) g') : Ends cfg env (.ok (.filtered start d.offset)) g g'
  | dropped {g g' : WorkGroup} {start stop : Nat} (h : Move cfg env g (some (.dropped stop)) g') :
    Ends cfg env (.ok (.filtered start stop)) g g'
  | quiet {g g' : WorkGroup} {e : PollEnd} (hmsg : ∀ d, e ≠ .ok (.message d))
    (hdead : ∀ o n r reason, e ≠ .deadLetter o n r reason) (h : Move cfg env g none g') :
    Ends cfg env e g g'

/-- Every answer reports a move. -/
theorem Ends.move {cfg : EngineConfig} {env : PollEnv} {e : PollEnd} {g g' : WorkGroup}
    (h : Ends cfg env e g g') : ∃ note, Move cfg env g note g' := by
  cases h with
  | reset h => exact ⟨_, h⟩
  | handed h => exact ⟨_, h⟩
  | parked h => exact ⟨_, h⟩
  | stashed h => exact ⟨_, h⟩
  | dropped h => exact ⟨_, h⟩
  | quiet _ _ h => exact ⟨_, h⟩

/-! ## One visit -/

/-- An open record that the filter does not want. -/
def Unmatched (env : PollEnv) (g : WorkGroup) (o : Nat) : Prop :=
  Open env g o ∧ ∃ r, Reads env o r ∧ filteredOut g.pattern r = true

/-- What a visit of the offset `o` does to a group, as a move. `run` is where the filtered run
began that the loop carries: a visit leaves it alone or counts its own record in, and a run that is
reported is this one and ends at the visited offset. -/
def Visits (cfg : EngineConfig) (env : PollEnv) (o : Nat) (g : WorkGroup) (run : Option Nat) :
    Turn Scan ScanStop → Prop
  | .next s => Move cfg env g none s.group ∧ s.group.filter = g.filter
    ∧ s.group.pendingMatch = g.pendingMatch
    ∧ (∀ o', o' ≠ o → s.group.leases.attempts o' = g.leases.attempts o')
    ∧ (s.filteredFrom = run ∨ s.filteredFrom = some (run.getD o) ∧ Unmatched env g o)
  | .stop why s => Ends cfg env (s.finish (some why) o) g s.group
    ∧ ∀ start stop, s.finish (some why) o = .ok (.filtered start stop) → run = some start ∧ stop = o

section Visit

variable {cfg : EngineConfig} {env : PollEnv} {g : WorkGroup} {o n : Nat} {token : LeaseToken}
  {leases : LeaseTable} {r : OwnedRecord} {s : Scan} {run : Option Nat}

variable {g' : WorkGroup}

theorem Granted.freed (h : Granted env g o token n leases) : Freed env g o (leases.ack token).2 :=
  .inr ⟨token, n, leases, h, rfl⟩

theorem Granted.get_of_ne (h : Granted env g o token n leases) {o' : Nat} (ho : o' ≠ o) :
    leases.leases.get o' = g.leases.leases.get o' := by
  obtain ⟨lease, hleases, -⟩ := (claim_granted h.claim).lease
  rw [hleases, get_insert_of_ne ho]

theorem Freed.get_of_ne (h : Freed env g o leases) {o' : Nat} (ho : o' ≠ o) :
    leases.leases.get o' = g.leases.leases.get o' := by
  rcases h with rfl | ⟨token, n, leases', hg, rfl⟩
  · rfl
  · rw [(claim_granted hg.claim).ack_eq]
    exact (get_erase_of_ne ho).trans (hg.get_of_ne ho)

theorem Freed.attempts_of_ne (h : Freed env g o leases) {o' : Nat} (ho : o' ≠ o) :
    leases.attempts o' = g.leases.attempts o' := by
  rcases h with rfl | ⟨token, n, leases', hg, rfl⟩
  · rfl
  · exact (claim_granted hg.claim).release_attempts_of_ne ho

theorem Ends.failed {e : EngineError} (h : Move cfg env g none g') :
    Ends cfg env (.error e) g g' :=
  .quiet (fun _ h => nomatch h) (fun _ _ _ _ h => nomatch h) h

theorem Ends.answered {p : Poll} (hp : ∀ d, p ≠ .message d) (h : Move cfg env g none g') :
    Ends cfg env (.ok p) g g' :=
  .quiet (fun d heq => hp d (PollEnd.ok.inj heq)) (fun _ _ _ _ h => nomatch h) h

/-- A filtered run that ends reports the run, whatever becomes of the record behind it. -/
theorem visits_endFiltered (hg : Granted env g o token n leases) (hp : g.pendingMatch = none)
    (hr : Reads env o r) (hwanted : filteredOut g.pattern r = false)
    (hs : s.group = { g with leases := leases })
    (hready : cfg.delivery.disposition n = .deliver → Ready cfg env r n) (start : Nat) :
    Visits cfg env o g (some start) (s.endFiltered cfg start ⟨o, token, n, r⟩) := by
  have hrun (start' stop : Nat) (h : PollEnd.ok (.filtered start o) = .ok (.filtered start' stop)) :
      some start = some start' ∧ stop = o := by
    cases h
    exact ⟨rfl, rfl⟩
  unfold endFiltered
  cases hn : cfg.delivery.disposition n with
  | deliver =>
    simp only [Visits, finish, hs]
    exact ⟨.stashed (.stash hg hp hr (hready hn)), hrun⟩
  | deadLetter =>
    simp only [Visits, finish, release, withLeases, hs]
    exact ⟨.dropped (.drop hg hp hr hwanted hn), hrun⟩

/-- A loop that stops without an answer of its own reports the run it carries. -/
theorem finish_eq_filtered {why : Option ScanStop} {start stop : Nat}
    (hwhy : ∀ p, why ≠ some (.poll p)) (h : s.finish why o = .ok (.filtered start stop)) :
    s.filteredFrom = some start ∧ stop = o := by
  unfold finish at h
  split at h
  · exact absurd rfl (hwhy _)
  · cases h
  all_goals
    split at h
    · rename_i hf
      cases h
      exact ⟨hf, rfl⟩
    · cases h

/-- A record to park is parked, unless a filtered run is reported first. -/
theorem ends_park {reason : DeadLetterReason} {leases' : LeaseTable}
    (hs : s.group = { g with leases := leases' })
    (hpark : Move cfg env g (some (.parked o n r reason)) { g with leases := leases' })
    (hwait : s.filteredFrom ≠ none → Move cfg env g none { g with leases := leases' }) :
    Visits cfg env o g s.filteredFrom (.stop (.park o n r reason) s) := by
  refine ⟨?_, fun _ _ => finish_eq_filtered fun _ h => nomatch h⟩
  simp only [finish, hs]
  cases hf : s.filteredFrom with
  | none => exact .parked hpark
  | some start => exact .answered (fun _ h => nomatch h) (hwait (by simp [hf]))

/-- A loop that halts reports its filtered run, or nothing. -/
theorem ends_hold (hs : s.group = g') (h : Move cfg env g none g') :
    Visits cfg env o g s.filteredFrom (.stop .hold s) := by
  refine ⟨?_, fun _ _ => finish_eq_filtered fun _ h => nomatch h⟩
  simp only [finish, hs]
  cases s.filteredFrom with
  | none => exact .answered (fun _ h => nomatch h) h
  | some start => exact .answered (fun _ h => nomatch h) h

theorem visits_hole (hopen : Open env g o) (hread : env.read o = .ok (some r))
    (hne : r.offset ≠ o) (hl : Freed env g o leases)
    (hp : g.pendingMatch = none ∨ leases = g.leases)
    (hs : s.group = { g with leases := leases, cursor := g.cursor.ackRange o r.offset }) :
    Visits cfg env o g run (.stop (.poll (.compacted o r.offset)) s) := by
  simp only [Visits, finish, hs]
  exact ⟨.answered (fun _ h => nomatch h) (.passHole hopen hread hne hl hp),
    fun _ _ h => nomatch h⟩

theorem visits_skip {router : Option KeyRouter} (hopen : Open env g o)
    (hr : Reads env o r) (why : Unwanted cfg env g r) (hl : Freed env g o leases)
    (hk : Cleared g o router) (hp : g.pendingMatch = none ∨ leases = g.leases)
    (hs : s.group = { g with leases := leases, router := router, cursor := (g.cursor.ack o).2 })
    (hrun : s.filteredFrom = run ∨ s.filteredFrom = some (run.getD o) ∧ Unmatched env g o) :
    Visits cfg env o g run (.next s) := by
  rw [Visits, hs]
  exact ⟨.skip hopen hr why hl hk hp, rfl, rfl, fun o' ho => hl.attempts_of_ne ho, hrun⟩

/-- A claimed record that is due and wanted goes out or is parked, unless a filtered run is reported
first. -/
theorem visits_grant (hg : Granted env g o token n leases) (hp : g.pendingMatch = none)
    (hr : Reads env o r) (hwanted : filteredOut g.pattern r = false)
    (hs : s.group = { g with leases := leases })
    (hready : cfg.delivery.disposition n = .deliver → Ready cfg env r n) :
    Visits cfg env o g s.filteredFrom (match s.filteredFrom with
      | some start => s.endFiltered cfg start ⟨o, token, n, r⟩
      | none =>
        match cfg.delivery.disposition n with
        | .deliver => .stop (.poll (.message ⟨o, token, n, r⟩)) s
        | .deadLetter => .stop (.park o n r .maxDeliverExceeded) (s.release token)) := by
  cases hf : s.filteredFrom with
  | some start => exact visits_endFiltered hg hp hr hwanted hs hready start
  | none =>
    cases hn : cfg.delivery.disposition n with
    | deliver =>
      simp only [Visits, finish, hs]
      exact ⟨.handed (.hand hg hr (hready hn) (.inl rfl)), fun _ _ h => nomatch h⟩
    | deadLetter =>
      have hrel : (s.release token).group = { g with leases := (leases.ack token).2 } := by
        simp only [release, withLeases, hs]
      have hpark : Visits cfg env o g (s.release token).filteredFrom
          (.stop (.park o n r .maxDeliverExceeded) (s.release token)) :=
        ends_park hrel (.park hg.toOpen hr hg.freed (.inl rfl)) fun h => absurd hf h
      rwa [show (s.release token).filteredFrom = none from hf] at hpark

/-- The plain loop of the default stream, once the record is read. -/
theorem visits_record (hg : Granted env g o token n leases) (hp : g.pendingMatch = none)
    (hread : env.read o = .ok (some r)) (hs : s.group = { g with leases := leases }) :
    Visits cfg env o g s.filteredFrom (visitRecord cfg env g.pattern o token n r s) := by
  have hrel : (s.release token).group = { g with leases := (leases.ack token).2 } := by
    simp only [release, withLeases, hs]
  unfold visitRecord
  split_ifs with hne hexp hdlx hfilter hundue
  · exact visits_hole hg.toOpen hread hne hg.freed (.inl hp) (by simp only [passHole, hrel])
  all_goals have hr : Reads env o r := ⟨hread, not_not.mp hne⟩
  · exact ends_park hrel (.park hg.toOpen hr hg.freed (.inl rfl))
      fun _ => .wait hg hp hr (.inr ⟨hexp, hdlx⟩)
  · exact visits_skip hg.toOpen hr (.inl ⟨hexp, Bool.eq_false_iff.mpr hdlx⟩) hg.freed (.inr rfl)
      (.inl hp) (by simp only [Scan.clearKey, Scan.skip, WorkGroup.clearKey, hrel]) (.inl rfl)
  · exact visits_skip hg.toOpen hr (.inr hfilter) hg.freed (.inr rfl) (.inl hp)
      (by simp only [Scan.noteFiltered, Scan.clearKey, Scan.skip, WorkGroup.clearKey, hrel])
      (.inr ⟨rfl, hg.toOpen, r, hr, hfilter⟩)
  · exact ends_hold hrel (.wait hg hp hr (.inl hundue))
  · exact visits_grant hg hp hr (Bool.eq_false_iff.mpr hfilter) hs fun hn =>
      ⟨Bool.eq_false_iff.mpr hundue, fun _ => Bool.eq_false_iff.mpr hexp, hn⟩

/-- A redelivery that the retry budget holds back only waits longer. -/
theorem retryThrottleDefer_eq (cfg : EngineConfig) (budget : RetryBudget) (leases : LeaseTable)
    (o now : Nat) :
    (∃ d budget', retryThrottleDefer cfg budget leases o now
        = (true, budget', (leases.deferRedelivery o now d).2))
      ∨ ∃ budget', retryThrottleDefer cfg budget leases o now = (false, budget', leases) := by
  unfold retryThrottleDefer
  cases leases.pendingRedeliveryAttempt o now with
  | none => exact .inr ⟨_, rfl⟩
  | some prior =>
    simp only
    cases hthrottle : budget.shouldThrottle now with
    | mk throttled budget' =>
      cases throttled with
      | false => exact .inr ⟨_, rfl⟩
      | true => exact .inl ⟨_, _, rfl⟩

theorem visits_stay (hs : s.group = g) : Visits cfg env o g s.filteredFrom (.next s) := by
  rw [Visits, hs]
  exact ⟨.stay g, rfl, rfl, fun _ _ => rfl, .inl rfl⟩

theorem visits_defer {d : Nat}
    (hs : s.group = { g with leases := (g.leases.deferRedelivery o env.now d).2 }) :
    Visits cfg env o g s.filteredFrom (.next s) := by
  rw [Visits, hs]
  exact ⟨.defer g o d, rfl, rfl, fun o' _ => (deferRedelivery_relet ..).attempts o', .inl rfl⟩

theorem visits_failed {e : EngineError} (hs : s.group = g') (h : Move cfg env g none g') :
    Visits cfg env o g run (.stop (.failed e) s) := by
  simp only [Visits, finish, hs]
  exact ⟨.failed h, fun _ _ h => nomatch h⟩

theorem visits_timed (ho : o < env.flushed) (s : Scan) (hp : s.group.pendingMatch = none) :
    Visits cfg env o s.group s.filteredFrom (visitTimed cfg env s.group.pattern o s) := by
  unfold visitTimed
  cases hacked : s.group.cursor.isAcked o with
  | true => exact visits_stay rfl
  | false =>
    rcases retryThrottleDefer_eq cfg s.budget s.group.leases o env.now with
      ⟨d, budget, heq⟩ | ⟨budget, heq⟩
    · rw [heq]
      exact visits_defer rfl
    · rw [heq]
      rcases hclaim : s.group.leases.claim o env.now with ⟨answer, leases⟩
      simp only [Bool.false_eq_true, if_false, hclaim]
      cases answer with
      | inFlight => exact visits_stay rfl
      | exhausted => exact visits_failed rfl (.stay _)
      | granted token n =>
        have hg : Granted env s.group o token n leases := ⟨⟨ho, hacked⟩, hclaim⟩
        rcases hread : env.read o with e | _ | r
        · exact visits_failed rfl (.strand hg hp)
        · exact visits_failed rfl (.strand hg hp)
        · exact visits_record hg hp hread rfl

theorem visits_namedPlain (ho : o < env.flushed) (s : Scan) (hp : s.group.pendingMatch = none)
    (hdlx : cfg.deadLettersExpired = false) :
    Visits cfg env o s.group s.filteredFrom (visitNamedPlain cfg env s.group.pattern o s) := by
  unfold visitNamedPlain
  cases hacked : s.group.cursor.isAcked o with
  | true => exact visits_stay rfl
  | false =>
    rcases hclaim : s.group.leases.claim o env.now with ⟨answer, leases⟩
    simp only [Bool.false_eq_true, if_false]
    cases answer with
    | inFlight => exact visits_stay rfl
    | exhausted => exact visits_failed rfl (.stay _)
    | granted token n =>
      have hg : Granted env s.group o token n leases := ⟨⟨ho, hacked⟩, hclaim⟩
      rcases hread : env.read o with e | _ | r
      · exact visits_failed rfl (.strand hg hp)
      · exact visits_failed rfl (.strand hg hp)
      simp only
      split_ifs with hne hfilter hundue
      · exact visits_hole hg.toOpen hread hne hg.freed (.inl hp) rfl
      all_goals have hr : Reads env o r := ⟨hread, not_not.mp hne⟩
      · exact visits_skip hg.toOpen hr (.inr hfilter) hg.freed (.inl rfl) (.inl hp) rfl
          (.inr ⟨rfl, hg.toOpen, r, hr, hfilter⟩)
      · exact ends_hold rfl (.wait hg hp hr (.inl hundue))
      · exact visits_grant hg hp hr (Bool.eq_false_iff.mpr hfilter) rfl fun hn =>
          ⟨Bool.eq_false_iff.mpr hundue, fun h => absurd h (by simp [hdlx]), hn⟩

end Visit

end WorkGroup

namespace KeyShared

/-! ## One visit of a key-shared loop -/

/-- Why a loop goes past an offset: it is acknowledged, leased, or refused by the router. -/
def Passed [Checksums] (env : PollEnv) (member : MemberId) (g : WorkGroup) (o : Nat) : Prop :=
  g.cursor.isAcked o = true ∨ (∃ lease, g.leases.leases.get o = some lease)
    ∨ ∃ r router, WorkGroup.Reads env o r ∧ g.router = some router
      ∧ router.decide member r.key o ≠ .deliver

/-- A loop that stops at an offset without a delivery. -/
def Silent (o : Nat) : ScanStop → Prop
  | .poll (.message _) => False
  | .park o' _ _ _ => o' = o
  | _ => True

/-- What a key-shared loop does at an offset that is not acknowledged. -/
inductive Routed [Checksums] (env : PollEnv) (member : MemberId) (o : Nat) (g : WorkGroup) :
    Turn Scan ScanStop → Prop where
  | pass {s : Scan} (hs : s.group = g ∨ ∃ d, s.group
      = { g with leases := (g.leases.deferRedelivery o env.now d).2 })
    (why : Passed env member g o) : Routed env member o g (.next s)
  | skip {s : Scan} {leases : LeaseTable} {router : Option KeyRouter}
    (hs : s.group = { g with leases := leases, router := router, cursor := (g.cursor.ack o).2 })
    (hl : WorkGroup.Freed env g o leases) (hk : WorkGroup.Cleared g o router) :
    Routed env member o g (.next s)
  | halt {s : Scan} {why : ScanStop} (hs : s.group = g) (hwhy : Silent o why) :
    Routed env member o g (.stop why s)
  | hole {s : Scan} {start stop next : Nat}
    (hs : s.group = { g with cursor := g.cursor.ackRange o next }) :
    Routed env member o g (.stop (.poll (.compacted start stop)) s)
  | park {s : Scan} {n n' : Nat} {token : LeaseToken} {leases : LeaseTable} {r : OwnedRecord}
    {reason : DeadLetterReason} (hg : WorkGroup.Granted env g o token n leases)
    (hs : s.group = { g with
      leases := (leases.ack token).2, router := g.router.map (·.clearOffset o) }) :
    Routed env member o g (.stop (.park o n' r reason) s)
  | hand {s : Scan} {n : Nat} {token : LeaseToken} {leases : LeaseTable} {r : OwnedRecord}
    {router : KeyRouter} (hg : WorkGroup.Granted env g o token n leases)
    (hr : WorkGroup.Reads env o r) (hrouter : g.router = some router)
    (hroute : router.decide member r.key o = .deliver)
    (hs : s.group = { g with leases := leases, router := some (router.markInFlight r.key o) }) :
    Routed env member o g (.stop (.poll (.message ⟨o, token, n, r⟩)) s)

section

variable {cfg : EngineConfig} {o : Nat}

theorem exists_lease_of_not_isClaimable {t : LeaseTable} {now : Nat}
    (h : t.isClaimable o now = false) : ∃ lease, t.leases.get o = some lease := by
  unfold isClaimable at h
  cases hget : t.leases.get o with
  | none => simp [hget] at h
  | some lease => exact ⟨lease, rfl⟩

theorem exists_lease_of_claim_inFlight {t t' : LeaseTable} {now : Nat}
    (h : t.claim o now = (.inFlight, t')) : ∃ lease, t.leases.get o = some lease := by
  unfold claim at h
  cases hget : t.leases.get o with
  | some lease => exact ⟨lease, rfl⟩
  | none =>
    simp only [hget, Option.any_none, Bool.false_eq_true, if_false] at h
    split at h
    · cases h
    · obtain ⟨n, heq, -⟩ := grant_claimed t o now _
        (checkedAdd_eq_some (by assumption))
      rw [h] at heq
      cases heq

/-- The retry budget holds back only a record that is leased. -/
theorem exists_lease_of_throttled {budget budget' : RetryBudget} {t t' : LeaseTable} {now : Nat}
    (h : retryThrottleDefer cfg budget t o now = (true, budget', t')) :
    ∃ lease, t.leases.get o = some lease := by
  cases hget : t.leases.get o with
  | some lease => exact ⟨lease, rfl⟩
  | none =>
    simp [retryThrottleDefer, pendingRedeliveryAttempt, hget] at h

end

end KeyShared

namespace WorkGroup

section RoutedVisit

variable {cfg : EngineConfig} {env : PollEnv} {g : WorkGroup} {o n : Nat} {token : LeaseToken}
  {leases : LeaseTable} {r : OwnedRecord} {s : Scan}

/-- A visit of a key-shared loop, which never reports a filtered run. -/
def VisitsRouted (cfg : EngineConfig) (env : PollEnv) (o : Nat) (g : WorkGroup)
    (turn : Turn Scan ScanStop) : Prop :=
  Visits cfg env o g none turn ∧ ∀ s, turn = .next s → s.filteredFrom = none

theorem visitsRouted_next (hf : s.filteredFrom = none)
    (h : Visits cfg env o g s.filteredFrom (.next s)) : VisitsRouted cfg env o g (.next s) :=
  ⟨hf ▸ h, fun s' heq => by cases heq; exact hf⟩

theorem visitsRouted_stop {why : ScanStop} (h : Visits cfg env o g none (.stop why s)) :
    VisitsRouted cfg env o g (.stop why s) :=
  ⟨h, fun _ heq => nomatch heq⟩

variable [Checksums] {member : MemberId}

/-- A visit of a key-shared loop: the move it makes, and what becomes of its offset. -/
structure RoutedTurn (cfg : EngineConfig) (env : PollEnv) (member : MemberId) (o : Nat)
    (g : WorkGroup) (turn : Turn Scan ScanStop) : Prop where
  visits : VisitsRouted cfg env o g turn
  routed : (∃ router, g.router = some router) → KeyShared.Routed env member o g turn

namespace RoutedTurn

theorem pass (hf : s.filteredFrom = none) (hs : s.group = g)
    (why : (∃ router, g.router = some router) → KeyShared.Passed env member g o) :
    RoutedTurn cfg env member o g (.next s) :=
  ⟨visitsRouted_next hf (visits_stay hs), fun hshared => .pass (.inl hs) (why hshared)⟩

theorem skip {router : Option KeyRouter} (hf : s.filteredFrom = none) (hopen : Open env g o)
    (hr : Reads env o r) (why : Unwanted cfg env g r) (hl : Freed env g o leases)
    (hk : Cleared g o router) (hp : g.pendingMatch = none ∨ leases = g.leases)
    (hs : s.group = { g with leases := leases, router := router, cursor := (g.cursor.ack o).2 }) :
    RoutedTurn cfg env member o g (.next s) :=
  ⟨visitsRouted_next hf (visits_skip hopen hr why hl hk hp hs (.inl rfl)),
    fun _ => .skip hs hl hk⟩

theorem failed (hs : s.group = g) (e : EngineError) :
    RoutedTurn cfg env member o g (.stop (.failed e) s) :=
  ⟨visitsRouted_stop (visits_failed hs (.stay _)), fun _ => .halt hs trivial⟩

theorem hold (hf : s.filteredFrom = none) (hs : s.group = g) :
    RoutedTurn cfg env member o g (.stop .hold s) :=
  ⟨visitsRouted_stop (hf ▸ ends_hold hs (.stay _)), fun _ => .halt hs trivial⟩

/-- A loop passes what is acknowledged or leased, and goes on with a record that it reads. -/
theorem read {f : OwnedRecord → Turn Scan ScanStop} (ho : o < env.flushed)
    (hf : s.filteredFrom = none)
    (h : ∀ {r}, Open env s.group o → Reads env o r → RoutedTurn cfg env member o s.group (f r)) :
    RoutedTurn cfg env member o s.group
      (if s.group.cursor.isAcked o then .next s
      else if s.group.leases.isClaimable o env.now = false then .next s
      else
        match env.read o with
        | .error e => .stop (.failed (.storage e)) s
        | .ok none => .stop (.failed (.missingRecord o)) s
        | .ok (some r) =>
          if r.offset ≠ o then .stop (.poll (.compacted o r.offset)) (s.passHole o r.offset)
          else f r) := by
  cases hacked : s.group.cursor.isAcked o with
  | true => exact .pass hf rfl fun _ => .inl hacked
  | false =>
    simp only [Bool.false_eq_true, if_false]
    split_ifs with hclaimable
    · exact .pass hf rfl fun _ => .inr (.inl (KeyShared.exists_lease_of_not_isClaimable hclaimable))
    rcases hread : env.read o with e | _ | r
    · exact .failed rfl _
    · exact .failed rfl _
    simp only
    split_ifs with hne
    · exact ⟨visitsRouted_stop (visits_hole ⟨ho, hacked⟩ hread hne (.inl rfl) (.inr rfl) rfl),
        fun _ => .hole rfl⟩
    · exact h ⟨ho, hacked⟩ ⟨hread, not_not.mp hne⟩

/-- A routed record that is claimed goes out with its key marked, or is parked with its key
freed. -/
theorem granted (hg : Granted env g o token n leases) (hr : Reads env o r)
    (hroute : ∀ router, g.router = some router → router.decide member r.key o = .deliver)
    (hs : s.group = { g with leases := leases })
    (hready : cfg.delivery.disposition n = .deliver → Ready cfg env r n)
    (hf : s.filteredFrom = none) :
    RoutedTurn cfg env member o g (grantRouted cfg o r token n s) := by
  unfold grantRouted
  cases hn : cfg.delivery.disposition n with
  | deliver =>
    refine ⟨visitsRouted_stop ?_, fun ⟨router, hrouter⟩ => ?_⟩
    · simp only [Visits, finish, hs]
      exact ⟨.handed (.hand hg hr (hready hn) (.inr rfl)), fun _ _ h => nomatch h⟩
    · refine .hand hg hr hrouter (hroute router hrouter) ?_
      simp only [hs, hrouter, Option.map_some]
  | deadLetter =>
    refine ⟨visitsRouted_stop ?_, fun _ => .park hg ?_⟩
    · simp only [Visits, finish, release, withLeases, hs, hf]
      exact ⟨.parked (.park hg.toOpen hr hg.freed (.inr rfl)), fun _ _ h => nomatch h⟩
    · simp only [Scan.clearKey, clearKey, Scan.release, Scan.withLeases, hs]

end RoutedTurn

theorem visits_member (ho : o < env.flushed) (member : MemberId) (s : Scan)
    (hf : s.filteredFrom = none) :
    RoutedTurn cfg env member o s.group (visitMember cfg env member o s) := by
  unfold visitMember
  refine .read ho hf fun {r} hopen hr => ?_
  split
  · rename_i hexp
    split_ifs with hdlx
    · exact ⟨visitsRouted_stop (hf ▸ ends_park rfl (.park hopen hr (.inl rfl) (.inl rfl))
        fun h => absurd hf h), fun _ => .halt rfl rfl⟩
    · exact .skip hf hopen hr (.inl ⟨hexp, Bool.eq_false_iff.mpr hdlx⟩) (.inl rfl) (.inr rfl)
        (.inr rfl) rfl
  rename_i hexp
  split_ifs with hdue
  · exact .hold hf rfl
  cases hrouter : s.group.router with
  | none => exact .failed rfl _
  | some router =>
    simp only
    have hrefused (h : router.decide member r.key o ≠ .deliver) :
        KeyShared.Passed env member s.group o := .inr (.inr ⟨r, router, hr, hrouter, h⟩)
    cases hroute : router.decide member r.key o with
    | notOwner => exact .pass hf rfl fun _ => hrefused (by simp [hroute])
    | keyBusy => exact .pass hf rfl fun _ => hrefused (by simp [hroute])
    | deliver =>
      rcases retryThrottleDefer_eq cfg s.budget s.group.leases o env.now with
        ⟨d, budget, heq⟩ | ⟨budget, heq⟩
      · rw [heq]
        exact ⟨visitsRouted_next hf (visits_defer rfl), fun _ =>
          .pass (.inr ⟨d, rfl⟩) (.inr (.inl (KeyShared.exists_lease_of_throttled heq)))⟩
      rw [heq]
      rcases hclaim : s.group.leases.claim o env.now with ⟨answer, leases⟩
      simp only
      cases answer with
      | inFlight =>
        exact .pass hf rfl fun _ => .inr (.inl (KeyShared.exists_lease_of_claim_inFlight hclaim))
      | exhausted => exact .failed (s := { s with budget := budget }) rfl _
      | granted token n =>
        refine .granted ⟨hopen, hclaim⟩ hr (fun router' h => ?_) rfl (fun hn =>
          ⟨Bool.eq_false_iff.mpr hdue, fun _ => Bool.eq_false_iff.mpr hexp, hn⟩) hf
        obtain rfl := Option.some.inj (hrouter.symm.trans h)
        exact hroute

theorem visits_namedMember (ho : o < env.flushed) (member : MemberId) (s : Scan)
    (hp : s.group.pendingMatch = none) (hdlx : cfg.deadLettersExpired = false)
    (hf : s.filteredFrom = none) : RoutedTurn cfg env member o s.group
      (visitNamedMember cfg env s.group.pattern member o s) := by
  unfold visitNamedMember
  simp only [Bool.or_eq_true, decide_eq_true_eq, ite_or]
  refine .read ho hf fun {r} hopen hr => ?_
  rcases hclaim : s.group.leases.claim o env.now with ⟨answer, leases⟩
  split
  · rename_i hfilter
    cases answer with
    | inFlight => exact .skip hf hopen hr (.inr hfilter) (.inl rfl) (.inl rfl) (.inl hp) rfl
    | exhausted => exact .skip hf hopen hr (.inr hfilter) (.inl rfl) (.inl rfl) (.inl hp) rfl
    | granted token n =>
      have hg : Granted env s.group o token n leases := ⟨hopen, hclaim⟩
      exact .skip hf hopen hr (.inr hfilter) hg.freed (.inl rfl) (.inl hp) rfl
  split
  · exact .hold hf rfl
  rename_i hdue
  split_ifs with hroute
  · refine .pass hf rfl fun ⟨router, hrouter⟩ => .inr (.inr ⟨r, router, hr, hrouter, fun h => ?_⟩)
    exact hroute (by rw [hrouter, Option.map_some, h])
  · cases answer with
    | inFlight =>
      exact .pass hf rfl fun _ => .inr (.inl (KeyShared.exists_lease_of_claim_inFlight hclaim))
    | exhausted => exact .failed rfl _
    | granted token n =>
      refine .granted ⟨hopen, hclaim⟩ hr (fun router h => ?_) rfl
        (fun hn => ⟨Bool.eq_false_iff.mpr hdue, fun h => absurd h (by simp [hdlx]), hn⟩) hf
      rw [h, Option.map_some, not_not] at hroute
      exact Option.some.inj hroute

end RoutedVisit

/-! ## A whole poll -/

/-- A filtered run of a poll of `g`, up to an offset: it began below, at a record that was open
when the poll came by and that the filter does not want. -/
def RunsTo (cfg : EngineConfig) (env : PollEnv) (g : WorkGroup) (start stop : Nat) : Prop :=
  start < stop ∧ ∃ g₀, Quiet cfg env g g₀ ∧ g₀.filter = g.filter ∧ Unmatched env g₀ start

/-- A poll makes silent moves and ends with the move its answer reports. Up to then nothing was
counted at the offset a filtered run ends at. -/
def Polls (cfg : EngineConfig) (env : PollEnv) (g : WorkGroup) (e : PollEnd) (g' : WorkGroup) :
    Prop :=
  ∃ g₁, Quiet cfg env g g₁ ∧ Ends cfg env e g₁ g'
    ∧ ∀ start stop, e = .ok (.filtered start stop) →
      g₁.leases.attempts stop = g.leases.attempts stop ∧ RunsTo cfg env g start stop

section Poll

variable {cfg : EngineConfig} {env : PollEnv} {g g' : WorkGroup} {e : PollEnd}

/-- Settling a pause moves deadlines, and nothing else. -/
theorem pauseActive_eq (g : WorkGroup) (now : Nat) :
    ∃ leases paused, (g.pauseActive now).2 = { g with leases := leases, paused := paused }
      ∧ g.leases.Settles leases ∧ ∀ o, leases.attempts o = g.leases.attempts o := by
  have hsame : g.leases.Settles g.leases := Relet.same.settles
  unfold pauseActive
  split
  · exact ⟨_, _, rfl, hsame, fun _ => rfl⟩
  · split
    · exact ⟨_, _, rfl, hsame, fun _ => rfl⟩
    · exact ⟨_, _, rfl, shiftDeadlines_settles _ _, attempts_shiftDeadlines _ _⟩

theorem Move.filter_eq {note : Option Note} (h : Move cfg env g note g') :
    g'.filter = g.filter := by
  cases h with
  | settle =>
    obtain ⟨leases, paused, heq, -⟩ := g.pauseActive_eq env.now
    rw [heq]
  | _ => rfl

theorem Quiet.filter_eq (h : Quiet cfg env g g') : g'.filter = g.filter := by
  induction h with
  | refl => rfl
  | tail _ hmove ih => exact (Move.filter_eq hmove).trans ih

theorem Polls.quiet_left {g₀ : WorkGroup} (h : Polls cfg env g e g') (hq : Quiet cfg env g₀ g)
    (ha : ∀ o, g.leases.attempts o = g₀.leases.attempts o) : Polls cfg env g₀ e g' := by
  obtain ⟨g₁, hq₁, hends, hstop⟩ := h
  refine ⟨g₁, hq.trans hq₁, hends, fun start stop heq => ?_⟩
  obtain ⟨hatt, hlt, g₂, hq₂, hfilter, hun⟩ := hstop start stop heq
  exact ⟨hatt.trans (ha stop), hlt, g₂, hq.trans hq₂, hfilter.trans (Quiet.filter_eq hq), hun⟩

theorem Polls.of_ends (h : Ends cfg env e g g')
    (hrun : ∀ start stop, e ≠ .ok (.filtered start stop)) : Polls cfg env g e g' :=
  ⟨g, .refl, h, fun _ _ heq => absurd heq (hrun _ _)⟩

/-- What a scan has come to at a position: silent moves that touched the attempts below only, and a
filtered run that began below. -/
structure Scanning (cfg : EngineConfig) (env : PollEnv) (g : WorkGroup) (pos : Nat) (s : Scan) :
    Prop where
  start_le : g.cursor.committed ≤ pos
  quiet : Quiet cfg env g s.group
  filter_eq : s.group.filter = g.filter
  pending_eq : s.group.pendingMatch = g.pendingMatch
  attempts_eq : ∀ o, pos ≤ o → s.group.leases.attempts o = g.leases.attempts o
  run : ∀ start, s.filteredFrom = some start → RunsTo cfg env g start pos

theorem Scanning.next {pos : Nat} {s s' : Scan} (h : Scanning cfg env g pos s)
    (hv : Visits cfg env pos s.group s.filteredFrom (.next s')) :
    Scanning cfg env g (pos + 1) s' := by
  obtain ⟨hmove, hfilter, hpend, hatt, hrun⟩ := hv
  refine ⟨Nat.le_succ_of_le h.start_le, h.quiet.tail hmove, hfilter.trans h.filter_eq,
    hpend.trans h.pending_eq, fun o ho => ?_, fun start hstart => ?_⟩
  · rw [hatt o (by omega), h.attempts_eq o (by omega)]
  · rcases hrun with hsame | ⟨hnote, hun⟩
    · obtain ⟨hlt, hfrom⟩ := h.run start (hsame ▸ hstart)
      exact ⟨Nat.lt_succ_of_lt hlt, hfrom⟩
    · -- the visited record is the first of the run, or the run began before it
      cases hf : s.filteredFrom with
      | none =>
        rw [hnote, hf] at hstart
        cases hstart
        exact ⟨Nat.lt_succ_self pos, s.group, h.quiet, h.filter_eq, hun⟩
      | some start' =>
        rw [hnote, hf] at hstart
        cases hstart
        obtain ⟨hlt, hfrom⟩ := h.run _ hf
        exact ⟨Nat.lt_succ_of_lt hlt, hfrom⟩

/-- A scan whose visits are moves is a poll. `R` is what the loop knows about its own state. -/
theorem scan_polls (R : Scan → Prop) (visit : Nat → Scan → Turn Scan ScanStop)
    (budget : RetryBudget) (hR : R ⟨g, budget, none⟩)
    (hvisit : ∀ o s, o < env.flushed → R s → s.group.filter = g.filter →
      s.group.pendingMatch = g.pendingMatch →
      Visits cfg env o s.group s.filteredFrom (visit o s) ∧ ∀ s', visit o s = .next s' → R s') :
    Polls cfg env g (g.scan cfg env visit budget).1 (g.scan cfg env visit budget).2.2 := by
  have lt_flushed {pos : Nat} (hle : g.cursor.committed ≤ pos) (hlt : pos < g.cursor.committed
      + (windowEnd cfg env g.cursor.committed - g.cursor.committed)) : pos < env.flushed := by
    have : windowEnd cfg env g.cursor.committed ≤ env.flushed := min_le_right _ _
    omega
  refine scanWindow_rule (fun pos s => R s ∧ Scanning cfg env g pos s)
    (fun res => Polls cfg env g (res.2.2.finish res.1 res.2.1) res.2.2.group)
    (g.cursor.committed + (windowEnd cfg env g.cursor.committed - g.cursor.committed))
    ?_ ?_ ?_ _ _ _ le_rfl
    ⟨hR, le_rfl, .refl, rfl, rfl, fun _ _ => rfl, fun _ h => nomatch h⟩
  · rintro pos s s' hlt ⟨hr, hs⟩ heq
    obtain ⟨hv, hnext⟩ := hvisit pos s (lt_flushed hs.start_le hlt) hr hs.filter_eq hs.pending_eq
    rw [heq] at hv
    exact ⟨hnext s' heq, hs.next hv⟩
  · rintro pos s why s' hlt ⟨hr, hs⟩ heq
    obtain ⟨hv, -⟩ := hvisit pos s (lt_flushed hs.start_le hlt) hr hs.filter_eq hs.pending_eq
    rw [heq] at hv
    refine ⟨s.group, hs.quiet, hv.1, fun start stop hfin => ?_⟩
    obtain ⟨hf, rfl⟩ := hv.2 start stop hfin
    exact ⟨hs.attempts_eq stop le_rfl, hs.run start hf⟩
  · rintro pos s ⟨-, hs⟩
    refine ⟨s.group, hs.quiet, ?_, fun start stop hfin => ?_⟩
    · simp only [finish]
      cases s.filteredFrom with
      | none => exact .answered (fun _ h => nomatch h) (.stay _)
      | some start => exact .answered (fun _ h => nomatch h) (.stay _)
    · obtain ⟨hf, rfl⟩ :=
        finish_eq_filtered (fun p (h : none = some (ScanStop.poll p)) => nomatch h) hfin
      exact ⟨hs.attempts_eq stop le_rfl, hs.run start hf⟩

/-- Waking up counts nothing. -/
theorem quiet_wake (cfg : EngineConfig) (env : PollEnv) (g : WorkGroup) :
    Quiet cfg env g ((g.touch env.now).pauseActive env.now).2
      ∧ ∀ o, ((g.touch env.now).pauseActive env.now).2.leases.attempts o = g.leases.attempts o := by
  refine ⟨.tail (.single (.touch g)) (.settle _), ?_⟩
  obtain ⟨leases, paused, heq, -, hatt⟩ := (g.touch env.now).pauseActive_eq env.now
  rw [heq]
  exact hatt

/-- A poll of a group that is not paused, after it woke up. -/
theorem polls_awake {f : WorkGroup → PollEnd × RetryBudget × WorkGroup}
    (h : ∀ g, Polls cfg env g (f g).1 (f g).2.2) (budget : RetryBudget) (g : WorkGroup) :
    let res := match (g.touch env.now).pauseActive env.now with
      | (true, g) => (PollEnd.ok .idle, budget, g)
      | (false, g) => f g
    Polls cfg env g res.1 res.2.2 := by
  obtain ⟨hq, ha⟩ := quiet_wake cfg env g
  rcases hwake : (g.touch env.now).pauseActive env.now with ⟨paused, g₁⟩
  rw [hwake] at hq ha
  refine Polls.quiet_left ?_ hq ha
  cases paused with
  | true => exact .of_ends (.answered (fun _ h => nomatch h) (.stay _)) fun _ _ h => nomatch h
  | false => exact h g₁

theorem pollTimed_polls (cfg : EngineConfig) (env : PollEnv) (budget : RetryBudget)
    (g : WorkGroup) :
    Polls cfg env g (g.pollTimed cfg env budget).1 (g.pollTimed cfg env budget).2.2 := by
  refine polls_awake (fun g₁ => ?_) budget g
  cases hmatch : g₁.pendingMatch with
  | some d => exact .of_ends (.handed (.handStash hmatch)) fun _ _ h => nomatch h
  | none =>
    simp only
    split_ifs with hlt
    · exact .of_ends (.reset (.reset hlt (.inl rfl))) fun _ _ h => nomatch h
    · refine scan_polls (fun _ => True) _ budget trivial
        fun o s ho _ hfilter hpend => ⟨?_, fun _ _ => trivial⟩
      have hpat : g₁.pattern = s.group.pattern := by rw [pattern, pattern, hfilter]
      rw [hpat]
      exact visits_timed ho s (hpend.trans hmatch)

section Routed

variable [Checksums]

theorem pollMember_polls (cfg : EngineConfig) (env : PollEnv) (member : MemberId)
    (budget : RetryBudget) (g : WorkGroup) :
    Polls cfg env g (g.pollMember cfg env member budget).1
      (g.pollMember cfg env member budget).2.2 := by
  refine polls_awake (fun g₁ => ?_) budget g
  split_ifs with hlt
  · exact .of_ends (.reset (.reset hlt (.inr rfl))) fun _ _ h => nomatch h
  · refine Polls.quiet_left ?_ (.single (.retain g₁)) fun _ => rfl
    refine scan_polls (fun s => s.filteredFrom = none) _ budget rfl fun o s ho hf _ _ => ?_
    rw [hf]
    exact (visits_member ho member s hf).visits

theorem pollNamed_polls (cfg : EngineConfig) (env : PollEnv) (member : MemberId)
    (budget : RetryBudget) (g : WorkGroup) (hdlx : cfg.deadLettersExpired = false) :
    Polls cfg env g (g.pollNamed cfg env member budget).1
      (g.pollNamed cfg env member budget).2.2 := by
  refine polls_awake (fun g₁ => ?_) budget g
  cases hmatch : g₁.pendingMatch with
  | some d => exact .of_ends (.handed (.handStash hmatch)) fun _ _ h => nomatch h
  | none =>
    simp only
    refine Polls.quiet_left ?_ (.single (.retain g₁)) fun _ => rfl
    split
    · rename_i hlt
      exact .of_ends (.reset (.reset hlt (.inl rfl))) fun _ _ h => nomatch h
    · split
      · refine scan_polls (fun s => s.filteredFrom = none) _ budget rfl
          fun o s ho hf hfilter hpend => ?_
        rw [show (g₁.retainKeys g₁.cursor.committed).pattern = s.group.pattern by
          rw [pattern, pattern, hfilter], hf]
        exact (visits_namedMember ho member s (hpend.trans hmatch) hdlx hf).visits
      · refine scan_polls (fun _ => True) _ budget trivial
          fun o s ho _ hfilter hpend => ⟨?_, fun _ _ => trivial⟩
        rw [show (g₁.retainKeys g₁.cursor.committed).pattern = s.group.pattern by
          rw [pattern, pattern, hfilter]]
        exact visits_namedPlain ho s (hpend.trans hmatch) hdlx

theorem pollInStream_polls (home : Home) (cfg : EngineConfig) (env : PollEnv)
    (member : Option MemberId) (budget : RetryBudget) (g : WorkGroup) :
    Polls (home.config cfg) env g (g.pollInStream home cfg env member budget).1
      (g.pollInStream home cfg env member budget).2.2 := by
  cases home with
  | named => exact pollNamed_polls { cfg with deadLetterExpired := false } env _ budget g rfl
  | default =>
    cases member with
    | none => exact pollTimed_polls cfg env budget g
    | some m =>
      simp only [pollInStream, pollInMember]
      cases g.keyOrdering with
      | none => exact pollTimed_polls cfg env budget g
      | keyShared => exact pollMember_polls cfg env m budget g

end Routed

end Poll

/-! ## What a poll passes -/

/-- A poll that finds the log truncated above the cursor forgets no acknowledgement of a record that
is still there. -/
def ForgetsNothing (env : PollEnv) (c : AckCursor) : Prop :=
  c.committed < env.earliest → ∀ o, env.earliest ≤ o → c.isAcked o = false

/-- Why a poll passes an offset for good: the log has no record from an offset at or below it up to
a later one, or the record is not wanted. -/
inductive Passes (cfg : EngineConfig) (env : PollEnv) (g : WorkGroup) (o : Nat) : Prop where
  | hole {o' : Nat} {r : OwnedRecord} (below : o' < env.flushed)
    (hread : env.read o' = .ok (some r)) (hle : o' ≤ o) (hlt : o < r.offset)
  | unwanted {r : OwnedRecord} (hr : Reads env o r) (why : Unwanted cfg env g r)

section Passes

variable {cfg : EngineConfig} {env : PollEnv} {g g' : WorkGroup} {note : Option Note} {e : PollEnd}
  {o : Nat}

theorem Passes.congr (hfilter : g'.filter = g.filter) (h : Passes cfg env g' o) :
    Passes cfg env g o := by
  cases h with
  | hole below hread hle hlt => exact .hole below hread hle hlt
  | unwanted hr why =>
    refine .unwanted hr ?_
    rwa [Unwanted, pattern, hfilter, ← pattern] at why

/-- The cursor goes on over what may be passed. -/
structure Advances (cfg : EngineConfig) (env : PollEnv) (g g' : WorkGroup) : Prop where
  wf : g'.cursor.Wf
  mono : g.cursor.acked ⊆ g'.cursor.acked
  passes : ∀ o, g'.cursor.isAcked o = true → g.cursor.isAcked o = true ∨ Passes cfg env g o

/-- A move acknowledges what it passes, and a reset what is below the earliest record. -/
theorem Move.advances (h : Move cfg env g note g') (hwf : g.cursor.Wf) :
    Advances cfg env g g' ∨ note = some .reset ∧ g.cursor.committed < env.earliest
      ∧ g'.cursor = .resume env.earliest := by
  cases h with
  | settle =>
    obtain ⟨leases, paused, heq, -⟩ := g.pauseActive_eq env.now
    rw [heq]
    exact .inl ⟨hwf, subset_rfl, fun _ ho => .inl ho⟩
  | reset hlt _ => exact .inr ⟨rfl, hlt, rfl⟩
  | @passHole o leases r hopen hread hne hl hp =>
    obtain ⟨hwf', hset⟩ := hwf.ackRange o r.offset
    refine .inl ⟨hwf', fun x hx => (hset x).mpr (.inl hx), fun x hx => ?_⟩
    rcases (hset x).mp hx with hx | ⟨hle, hlt, -⟩
    · exact .inl hx
    · exact .inr (.hole hopen.below hread hle hlt)
  | @skip o leases router r hopen hr why hl hk hp =>
    obtain ⟨hwf', hset⟩ := hwf.ack o
    refine .inl ⟨hwf', fun x hx => (hset x).mpr (.inl hx), fun x hx => ?_⟩
    rcases (hset x).mp hx with hx | ⟨rfl, -⟩
    · exact .inl hx
    · exact .inr (.unwanted hr why)
  | _ => exact .inl ⟨hwf, subset_rfl, fun _ ho => .inl ho⟩

theorem Advances.trans {g₁ : WorkGroup} (h : Advances cfg env g g₁) (h' : Advances cfg env g₁ g')
    (hfilter : g₁.filter = g.filter) : Advances cfg env g g' := by
  refine ⟨h'.wf, h.mono.trans h'.mono, fun o ho => ?_⟩
  rcases h'.passes o ho with ho | ho
  · exact h.passes o ho
  · exact .inr (ho.congr hfilter)

theorem Quiet.advances (h : Quiet cfg env g g') (hwf : g.cursor.Wf) : Advances cfg env g g' := by
  induction h with
  | refl => exact ⟨hwf, subset_rfl, fun _ ho => .inl ho⟩
  | tail hquiet hmove ih =>
    obtain hnext | ⟨hnote, -⟩ := hmove.advances ih.wf
    · exact ih.trans hnext (Quiet.filter_eq hquiet)
    · cases hnote

/-- Nothing is taken back before a reset, so the cursor was below the earliest record all along. -/
theorem Quiet.committed_lt (h : Quiet cfg env g g') (hwf : g.cursor.Wf)
    (hlt : g'.cursor.committed < env.earliest) : g.cursor.committed < env.earliest := by
  have hadv := Quiet.advances h hwf
  exact (AckCursor.committed_le_of_acked_subset hwf hadv.wf hadv.mono).trans_lt hlt

/-- What a poll acknowledges was passed for good, or is below the earliest record. -/
theorem Polls.advances (h : Polls cfg env g e g') (hwf : g.cursor.Wf) :
    Advances cfg env g g' ∨ g.cursor.committed < env.earliest
      ∧ g'.cursor = .resume env.earliest := by
  obtain ⟨g₁, hquiet, hends, -⟩ := h
  have hq := Quiet.advances hquiet hwf
  obtain ⟨note, hmove⟩ := hends.move
  obtain hnext | ⟨-, hlt, hcursor⟩ := hmove.advances hq.wf
  · exact .inl (hq.trans hnext (Quiet.filter_eq hquiet))
  · exact .inr ⟨Quiet.committed_lt hquiet hwf hlt, hcursor⟩

/-- Leases are taken below the durable head only. -/
theorem Move.no_lease (h : Move cfg env g note g') (ho : env.flushed ≤ o)
    (hget : g.leases.leases.get o = none) : g'.leases.leases.get o = none := by
  have hgranted {o' n : Nat} {token : LeaseToken} {leases : LeaseTable}
      (hg : Granted env g o' token n leases) : leases.leases.get o = none := by
    have := hg.below
    rw [hg.get_of_ne (by omega), hget]
  have hfreed {o' : Nat} {leases : LeaseTable} (hopen : Open env g o')
      (hl : Freed env g o' leases) : leases.leases.get o = none := by
    have := hopen.below
    rw [hl.get_of_ne (by omega), hget]
  cases h with
  | settle =>
    obtain ⟨leases, paused, heq, hsettles, -⟩ := g.pauseActive_eq env.now
    rw [heq]
    exact hsettles.free o hget
  | reset _ _ => rfl
  | defer o' d => exact (deferRedelivery_relet ..).settles.free o hget
  | strand hg _ => exact hgranted hg
  | wait hg _ _ _ => exact hfreed hg.toOpen hg.freed
  | drop hg _ _ _ _ => exact hfreed hg.toOpen hg.freed
  | passHole hopen _ _ hl _ => exact hfreed hopen hl
  | skip hopen _ _ hl _ _ => exact hfreed hopen hl
  | park hopen _ hl _ => exact hfreed hopen hl
  | stash hg _ _ _ => exact hgranted hg
  | hand hg _ _ _ => exact hgranted hg
  | _ => exact hget

theorem Polls.no_lease (h : Polls cfg env g e g') (ho : env.flushed ≤ o)
    (hget : g.leases.leases.get o = none) : g'.leases.leases.get o = none := by
  obtain ⟨g₁, hquiet, hends, -⟩ := h
  have hquiet : g₁.leases.leases.get o = none := by
    clear hends
    induction hquiet with
    | refl => exact hget
    | tail _ hmove ih => exact hmove.no_lease ho ih
  obtain ⟨note, hmove⟩ := hends.move
  exact hmove.no_lease ho hquiet

/-- A record to dead-letter is open when the poll gives it up. -/
theorem Polls.parked_open {n : Nat} {r : OwnedRecord} {reason : DeadLetterReason}
    (h : Polls cfg env g (.deadLetter o n r reason) g') : Open env g' o ∧ Reads env o r := by
  obtain ⟨g₁, -, hends, -⟩ := h
  cases hends with
  | parked hmove =>
    cases hmove with
    | park hopen hr _ _ => exact ⟨⟨hopen.below, hopen.unacked⟩, hr⟩
  | quiet _ hdead _ => exact absurd rfl (hdead _ _ _ _)

end Passes

/-! ## Settling -/

/-- An acknowledgement is fenced, shed, or recorded with the key of its offset freed. -/
theorem ackIn_cases (cfg : EngineConfig) (now : Nat) (token : LeaseToken) (g : WorkGroup) :
    (g.leases.owned token = none ∧ g.ackIn cfg now token = (.fenced, g.touch now))
      ∨ (g.leases.owned token ≠ none
        ∧ (g.cursor.ackBounded token.offset cfg.maxAckedAheadRuns).1 = .shed
        ∧ g.ackIn cfg now token
          = (.acked, { g.touch now with leases := (g.leases.ack token).2 }))
      ∨ (g.leases.owned token ≠ none
        ∧ (g.cursor.ackBounded token.offset cfg.maxAckedAheadRuns).1 ≠ .shed
        ∧ g.ackIn cfg now token = (.acked, WorkGroup.clearKey { g.touch now with
          leases := (g.leases.ack token).2
          cursor := (g.cursor.ackBounded token.offset cfg.maxAckedAheadRuns).2 }
            token.offset)) := by
  unfold ackIn
  simp only [show (g.touch now).leases = g.leases from rfl,
    show (g.touch now).cursor = g.cursor from rfl, LeaseTable.ack]
  cases howned : g.leases.owned token with
  | none => exact .inl ⟨rfl, rfl⟩
  | some lease =>
    refine .inr ?_
    rcases hb : g.cursor.ackBounded token.offset cfg.maxAckedAheadRuns with ⟨outcome, c⟩
    cases outcome with
    | shed => exact .inl ⟨by simp, rfl, rfl⟩
    | recorded => exact .inr ⟨by simp, by simp, rfl⟩
    | duplicate => exact .inr ⟨by simp, by simp, rfl⟩

/-- An acknowledgement passes nothing but its own offset. -/
theorem ackIn_acked (cfg : EngineConfig) {g : WorkGroup} (hwf : g.cursor.Wf) (now : Nat)
    (token : LeaseToken) :
    (g.ackIn cfg now token).2.cursor.Wf
      ∧ g.cursor.acked ⊆ (g.ackIn cfg now token).2.cursor.acked
      ∧ (∀ o, (g.ackIn cfg now token).2.cursor.isAcked o = true → g.cursor.isAcked o = true
        ∨ (o = token.offset ∧ g.leases.leases.get o ≠ none))
      ∧ ∀ o, g.leases.leases.get o = none →
        (g.ackIn cfg now token).2.leases.leases.get o = none := by
  rcases g.ackIn_cases cfg now token with ⟨-, heq⟩ | ⟨-, -, heq⟩ | ⟨howned, -, heq⟩
  · rw [heq]
    exact ⟨hwf, subset_rfl, fun _ ho => .inl ho, fun _ hget => hget⟩
  · rw [heq]
    exact ⟨hwf, subset_rfl, fun _ ho => .inl ho, (ack_settles _ _).free⟩
  · rw [heq]
    obtain ⟨lease, howned⟩ := Option.ne_none_iff_exists'.mp howned
    have hlease : g.leases.leases.get token.offset ≠ none := by
      rw [(owned_eq_some howned).1]
      exact nofun
    obtain ⟨hwf', hsub⟩ := hwf.ackBounded token.offset cfg.maxAckedAheadRuns
    refine ⟨hwf', hsub, fun o ho => ?_, (ack_settles _ _).free⟩
    have ho' : (g.cursor.ackBounded token.offset cfg.maxAckedAheadRuns).2.isAcked o = true := ho
    rcases AckCursor.ackBounded_cases hwf token.offset cfg.maxAckedAheadRuns with
      ⟨hb, -⟩ | ⟨hb, -⟩ | ⟨c, hb, -, -, hset⟩
    · rw [hb] at ho'
      exact .inl ho'
    · rw [hb] at ho'
      exact .inl ho'
    · rw [hb] at ho'
      have hmem : o ∈ c.acked := ho'
      rw [hset] at hmem
      refine hmem.imp_right fun heq => ?_
      obtain rfl := heq
      exact ⟨rfl, hlease⟩

/-- A termination is an acknowledgement, or it is refused and does nothing. -/
theorem termIn_cases (cfg : EngineConfig) (env : PollEnv) (written : Except EngineError Unit)
    (token : LeaseToken) (g : WorkGroup) :
    g.termIn cfg env written token =
      (.ok (g.ackIn cfg env.now token).1, (g.ackIn cfg env.now token).2)
      ∨ ((g.termIn cfg env written token).2 = g
        ∧ (g.termIn cfg env written token).1 ≠ .ok .acked) := by
  unfold termIn
  simp only
  split
  · exact .inl rfl
  · split
    · exact .inr ⟨rfl, nofun⟩
    · split
      · exact .inr ⟨rfl, nofun⟩
      · split
        · exact .inr ⟨rfl, nofun⟩
        · exact .inl rfl

theorem nackIn_eq (cfg : EngineConfig) (now : Nat) (token : LeaseToken) (delayMs : Nat)
    (g : WorkGroup) :
    ∃ d, (g.nackIn cfg now token delayMs).2
        = { g.touch now with leases := (g.leases.nack token now d).2 }
      ∧ ((g.nackIn cfg now token delayMs).1 = .ok .requeued → g.leases.owned token ≠ none) := by
  refine ⟨cfg.delivery.effectiveNackDelay ((g.leases.deliveries token).getD 0)
    (if delayMs = u64Max then none else some (saturatingMul delayMs 1000000)), ?_⟩
  unfold nackIn
  simp only [show (g.touch now).leases = g.leases from rfl, nack]
  cases howned : g.leases.owned token with
  | none => exact ⟨rfl, fun h => by cases h⟩
  | some lease =>
    cases checkedAdd g.leases.nextGeneration 1 with
    | none => exact ⟨rfl, fun _ h => by cases h⟩
    | some next => exact ⟨rfl, fun _ h => by cases h⟩

theorem progressIn_eq (now : Nat) (token : LeaseToken) (g : WorkGroup) :
    (g.progressIn now token).2 = { g.touch now with leases := (g.leases.extend token now).2 }
      ∧ ((g.progressIn now token).1 ≠ .fenced → g.leases.owned token ≠ none) := by
  unfold progressIn
  simp only [show (g.touch now).leases = g.leases from rfl, extend]
  cases howned : g.leases.owned token with
  | none => exact ⟨rfl, fun h => absurd rfl h⟩
  | some lease =>
    simp only
    by_cases hcap : saturatingAdd lease.attemptStart g.leases.config.hardCapNanos ≤ now
    · rw [if_pos hcap]
      exact ⟨rfl, fun _ h => by cases h⟩
    · rw [if_neg hcap]
      exact ⟨rfl, fun _ h => by cases h⟩

theorem deadLetterPast_spec (home : Home) (o : Nat) (g : WorkGroup) :
    (g.deadLetterPast home o).cursor = (g.cursor.ack o).2
      ∧ (g.deadLetterPast home o).leases = g.leases
      ∧ (g.deadLetterPast home o).pendingMatch = g.pendingMatch := by
  cases home <;> exact ⟨rfl, rfl, rfl⟩

end WorkGroup

end IronBus
