import IronBus.ForStd.List
import IronBus.Native.DataPlane
import IronBus.Spec.IsrCorrect

/-!
# Delivery of quorum acks

A world is the client gate of a node with what it has done so far: the replies parked, in the
order of their tokens, what each connection has been given, and the quorum commits that were seen.
Producers, followers' reports, disconnects and drains come in any order.

The gate releases from the front of one queue that all connections share. A release inside a
producer's own call goes to that producer, whoever owns what is released, and it overtakes what
already waits in the producer's outbox. So the call must find nothing due at the front of the
gate, where a disconnect can leave it, and must not commit at once while something waits in the
caller's outbox.

Key results:
- `AckView.Inv.park`, `AckView.Inv.release`, `AckView.Inv.purge`: what each operation keeps
- `AckWorld.acks_delivered`: what holds over runs
- `AckWorld.batch_crosses_connections`: the two ways in which a call goes wrong
-/

namespace IronBus

open Function DataPlaneController QuorumAckGate ProduceAckSeam NatMap List

/-! ## The led partitions of a controller -/

namespace DataPlaneController

variable {c c' : DataPlaneController} {p q : Nat}

/-- The tracker and the gate of a led partition. -/
def led (c : DataPlaneController) (p : Nat) : Option (IsrTracker × QuorumAckGate Nat) :=
  match c.roles.get p with
  | some (.leader _ isr gate) => some (isr, gate)
  | _ => none

variable {isr : IsrTracker} {gate : QuorumAckGate Nat}

theorem led_eq_some_iff :
    c.led p = some (isr, gate) ↔ ∃ plane, c.roles.get p = some (.leader plane isr gate) := by
  unfold led
  split <;> simp_all

theorem leaderRole_eq_ok_iff {plane : ReplicaLog} :
    c.leaderRole p = .ok (plane, isr, gate) ↔ c.roles.get p = some (.leader plane isr gate) := by
  unfold leaderRole
  split <;> simp_all

theorem isLeader_iff : c.isLeader p = true ↔ ∃ isr gate, c.led p = some (isr, gate) := by
  unfold isLeader led
  split <;> simp_all

/-- Putting a leader's role in place changes that partition only. -/
theorem led_insert (c : DataPlaneController) (plane : ReplicaLog) (isr : IsrTracker)
    (gate : QuorumAckGate Nat) :
    ({ c with roles := c.roles.insert p (.leader plane isr gate) } : DataPlaneController).led
      = update c.led p (some (isr, gate)) := by
  funext q
  by_cases hq : q = p
  · subst hq
    simp [led]
  · rw [update_of_ne hq, led, led, get_insert_of_ne hq]

theorem led_observeLeaderFsync (n : Nat) (h : c.led p = some (isr, gate)) :
    (c.observeLeaderFsync p n).led
      = update c.led p (some (isr.observeLeaderFsync n, gate)) := by
  obtain ⟨plane, hget⟩ := led_eq_some_iff.mp h
  simp only [observeLeaderFsync, hget]
  exact led_insert ..

theorem led_purgeParkedTokens (c : DataPlaneController) (tokens : List Nat) (p : Nat) :
    (c.purgeParkedTokens tokens).led p
      = (c.led p).map fun l => (l.1, l.2.purgeWhere (· ∈ tokens)) := by
  simp only [led, purgeParkedTokens, get_map]
  cases c.roles.get p with
  | none => rfl
  | some r => cases r <;> rfl

/-- What parking does to a led partition. -/
theorem parkProduceAck_led (offset token : Nat) (h : c.led p = some (isr, gate)) :
    (gate.park offset token = none ∧ c.parkProduceAck p offset token = .ok (false, c)) ∨
      ∃ gate' c', gate.park offset token = some gate' ∧
        c.parkProduceAck p offset token = .ok (true, c') ∧
        c'.led = update c.led p (some (isr, gate')) := by
  obtain ⟨plane, hget⟩ := led_eq_some_iff.mp h
  simp only [parkProduceAck, leaderRole_eq_ok_iff.mpr hget]
  cases gate.park offset token with
  | none => exact .inl ⟨rfl, rfl⟩
  | some gate' => exact .inr ⟨gate', _, rfl, rfl, led_insert ..⟩

/-- What releasing does to a led partition. -/
theorem releaseQuorumAcked_led (h : c.led p = some (isr, gate)) :
    ∃ c', c.releaseQuorumAcked p = .ok ((gate.releaseUpTo isr.quorumCommit).1, c') ∧
      c'.led = update c.led p (some (isr, (gate.releaseUpTo isr.quorumCommit).2)) := by
  obtain ⟨plane, hget⟩ := led_eq_some_iff.mp h
  simp only [releaseQuorumAcked, leaderRole_eq_ok_iff.mpr hget]
  exact ⟨_, rfl, led_insert ..⟩

/-- What a report does to a led partition. -/
theorem applyFollowerReport_led (report : AckReplicatedBody) (h : c.led p = some (isr, gate)) :
    ∃ c', c.applyFollowerReport p report
        = .ok ((gate.releaseUpTo (isr.observeFollowerReport report).quorumCommit).1, c') ∧
      c'.led = update c.led p (some (isr.observeFollowerReport report,
        (gate.releaseUpTo (isr.observeFollowerReport report).quorumCommit).2)) := by
  obtain ⟨plane, hget⟩ := led_eq_some_iff.mp h
  simp only [applyFollowerReport, leaderRole_eq_ok_iff.mpr hget]
  exact ⟨_, rfl, led_insert ..⟩

theorem applyFollowerReport_error (report : AckReplicatedBody) (h : c.led p = none) :
    ∃ e, c.applyFollowerReport p report = .error e := by
  cases hrole : c.leaderRole p with
  | error e => exact ⟨e, by simp [applyFollowerReport, hrole]⟩
  | ok l =>
    rw [led_eq_some_iff.mpr ⟨l.1, leaderRole_eq_ok_iff.mp hrole⟩] at h
    cases h

theorem quorumCommit_eq (c : DataPlaneController) (p : Nat) :
    c.quorumCommit p = (c.led p).bind (·.1.quorumCommit) := by
  unfold quorumCommit led
  split <;> simp_all

end DataPlaneController

/-! ## What one call does -/

namespace ProduceAckSeam

/-- Distinct tokens of the table give their replies and leave it. -/
theorem takeReplies_spec (reply : Nat → Nat × Bytes) {tokens : List Nat}
    {parked : NatMap (Nat × Bytes)} (hnodup : tokens.Nodup)
    (hget : ∀ t ∈ tokens, parked.get t = some (reply t)) :
    (takeReplies tokens parked).1 = tokens.map reply ∧
      ∀ t, (takeReplies tokens parked).2.get t = if t ∈ tokens then none else parked.get t := by
  induction tokens generalizing parked with
  | nil => simp [takeReplies]
  | cons t tokens ih =>
    obtain ⟨ht, hnodup⟩ := nodup_cons.mp hnodup
    have hrest : ∀ t' ∈ tokens, (parked.erase t).get t' = some (reply t') := by
      intro t' ht'
      have hne : t' ≠ t := fun h => ht (h ▸ ht')
      rw [get_erase_of_ne hne]
      exact hget t' (mem_cons_of_mem _ ht')
    obtain ⟨hreplies, hparked⟩ := ih hnodup hrest
    simp only [takeReplies, hget t mem_cons_self, hreplies, map_cons, true_and]
    intro t'
    rw [hparked]
    by_cases htt : t' = t
    · subst htt
      simp
    · simp [htt, get_erase_of_ne htt]

/-- The tokens a purge of an owner removes. -/
theorem mem_owned_iff (parked : NatMap (Nat × Bytes)) (owner t : Nat) :
    t ∈ parked.keys.filter (fun t => (parked.get t).any (·.1 = owner))
      ↔ (parked.get t).any (·.1 = owner) = true := by
  rw [mem_filter, NatMap.mem_keys, and_iff_right_iff_imp]
  intro h
  cases hget : parked.get t with
  | none => simp [hget] at h
  | some ob => exact ⟨ob, rfl⟩

theorem get_foldl_erase (tokens : List Nat) (m : NatMap (Nat × Bytes)) (t : Nat) :
    (tokens.foldl erase m).get t = if t ∈ tokens then none else m.get t := by
  induction tokens generalizing m with
  | nil => simp
  | cons d tokens ih =>
    rw [foldl_cons, ih]
    by_cases htd : t = d
    · subst htd
      simp
    · simp [htd, get_erase_of_ne htd]

/-- A purge takes exactly the owner's replies out of the table. -/
theorem get_parked_purgeOwner (s : ProduceAckSeam) (owner t : Nat) :
    (s.purgeOwner owner).parked.get t
      = if (s.parked.get t).any (·.1 = owner) then none else s.parked.get t := by
  have hmem := mem_owned_iff s.parked owner t
  unfold purgeOwner
  dsimp only
  split_ifs with hdead hany hany
  · rw [hdead] at hmem
    exact absurd (hmem.mpr hany) not_mem_nil
  · rfl
  · rw [get_foldl_erase, if_pos (hmem.mpr hany)]
  · rw [get_foldl_erase, if_neg (mt hmem.mp hany)]

/-- And exactly their tokens out of the gates. -/
theorem led_purgeOwner (s : ProduceAckSeam) (owner p : Nat) :
    (s.purgeOwner owner).controller.led p = (s.controller.led p).map fun l =>
      (l.1, l.2.purgeWhere fun t => (s.parked.get t).any (·.1 = owner)) := by
  have hpurge : ∀ gate : QuorumAckGate Nat,
      gate.purgeWhere (· ∈ s.parked.keys.filter fun t => (s.parked.get t).any (·.1 = owner))
        = gate.purgeWhere fun t => (s.parked.get t).any (·.1 = owner) := by
    intro gate
    refine congrArg gate.purgeWhere (funext fun t => ?_)
    rw [Bool.eq_iff_iff, decide_eq_true_iff]
    exact mem_owned_iff s.parked owner t
  unfold purgeOwner
  dsimp only
  split_ifs with hdead
  · -- nothing of the owner's is parked, so the purge keeps every token
    have hnone : ∀ gate : QuorumAckGate Nat,
        gate.purgeWhere (fun t => (s.parked.get t).any (·.1 = owner)) = gate := by
      intro gate
      rw [← hpurge, hdead]
      simp [purgeWhere]
    simp [hnone]
  · rw [led_purgeParkedTokens]
    simp only [hpurge]

end ProduceAckSeam

namespace ClientAckGate

/-- The tracker and the gate of a partition this node leads. -/
def led (g : ClientAckGate) : Nat → Option (IsrTracker × QuorumAckGate Nat) :=
  g.seam.controller.led

/-- Everything a producer's call does: nothing, a refusal at the cap, or a parking followed by a
release. -/
theorem onLocalFsyncedAck_cases (g : ClientAckGate) (member partition offset : Nat)
    (reply : Bytes) :
    g.onLocalFsyncedAck member partition offset reply = (.writeNow reply, g) ∨
    ∃ isr gate g', g.led partition = some (isr, gate) ∧ g'.outbox = g.outbox ∧
      ((g.onLocalFsyncedAck member partition offset reply = (.rejected, g') ∧
        g'.led = update g.led partition
          (some (isr.observeLeaderFsync (saturatingAdd offset 1), gate)) ∧
        g'.seam.parked = g.seam.parked ∧ g'.seam.nextToken = g.seam.nextToken) ∨
      ∃ tokens gate' taken,
        releaseUpTo
            { gate with pending := gate.pending ++ [⟨offset, g.seam.nextToken⟩] }
            (isr.observeLeaderFsync (saturatingAdd offset 1)).quorumCommit = (tokens, gate') ∧
        takeReplies tokens
            (g.seam.parked.insert g.seam.nextToken (member, reply)) = taken ∧
        g.onLocalFsyncedAck member partition offset reply
          = (if taken.1 = [] then .parked else .writeNowBatch (taken.1.map Prod.snd), g') ∧
        g'.led = update g.led partition
          (some (isr.observeLeaderFsync (saturatingAdd offset 1), gate')) ∧
        g'.seam.parked = taken.2 ∧ g'.seam.nextToken = (g.seam.nextToken + 1) % 2 ^ 64) := by
  by_cases hlevel : g.configuredLevel.ackImpliesQuorumFsync = true
  · by_cases hlead : g.seam.controller.isLeader partition = true
    · obtain ⟨isr, gate, hled⟩ := isLeader_iff.mp hlead
      right
      have hobs := led_observeLeaderFsync (saturatingAdd offset 1) hled
      generalize hc : g.seam.controller.observeLeaderFsync partition (saturatingAdd offset 1) = c
        at hobs
      have hled' : c.led partition =
          some (isr.observeLeaderFsync (saturatingAdd offset 1), gate) := by
        rw [hobs, update_self]
      have hlead' : c.isLeader partition = true :=
        isLeader_iff.mpr ⟨_, _, hled'⟩
      rcases parkProduceAck_led offset g.seam.nextToken hled' with
        ⟨-, hpark⟩ | ⟨gate₁, c₁, hgate, hpark, hled₁⟩
      · refine ⟨isr, gate, { g with seam := { g.seam with controller := c } }, hled, rfl,
          .inl ⟨?_, hobs, rfl, rfl⟩⟩
        simp only [onLocalFsyncedAck, onLocalFsyncedAckOwned, hlevel, hlead, hc,
          hlead', hpark, Bool.not_true, Bool.or_self, Bool.false_eq_true, if_false]
      · obtain ⟨-, rfl⟩ := park_eq_some_iff.mp hgate
        obtain ⟨c₂, hrel, hled₂⟩ := releaseQuorumAcked_led
          (show c₁.led partition = some _ by rw [hled₁, update_self])
        rw [hled₁, update_idem, hobs, update_idem] at hled₂
        rcases hrelease : releaseUpTo
          { gate with pending := gate.pending ++ [⟨offset, g.seam.nextToken⟩] }
          (isr.observeLeaderFsync (saturatingAdd offset 1)).quorumCommit with ⟨tokens, gate'⟩
        generalize htaken : takeReplies tokens
          (g.seam.parked.insert g.seam.nextToken (member, reply)) = taken
        rw [hrelease] at hrel hled₂
        refine ⟨isr, gate, { g with seam := ⟨c₂, (g.seam.nextToken + 1) % 2 ^ 64, taken.2⟩ }, hled,
          rfl, .inr ⟨tokens, gate', taken, hrelease, htaken, ?_, hled₂, rfl, rfl⟩⟩
        simp only [onLocalFsyncedAck, onLocalFsyncedAckOwned, hlevel, hlead, hc,
          hlead', hpark, Bool.not_true, Bool.or_self, Bool.false_eq_true, if_false,
          takeReleasedOwned, hrel, ownedBytesForTokens, htaken]
        obtain ⟨replies, parked⟩ := taken
        cases replies with
        | nil => rfl
        | cons reply replies => rfl
    · exact .inl (by simp [onLocalFsyncedAck, hlevel, hlead])
  · exact .inl (by simp [onLocalFsyncedAck, hlevel])

/-- Everything a follower's report does: nothing, or an update of the partition's frontiers
followed by a release into the outboxes. -/
theorem onFollowerReport_cases (g : ClientAckGate) (partition : Nat) (report : AckReplicatedBody) :
    (g.led partition = none ∧ g.onFollowerReport partition report = g) ∨
    ∃ isr gate tokens gate' taken, g.led partition = some (isr, gate) ∧
      gate.releaseUpTo (isr.observeFollowerReport report).quorumCommit = (tokens, gate') ∧
      takeReplies tokens g.seam.parked = taken ∧
      (g.onFollowerReport partition report).led
        = update g.led partition (some (isr.observeFollowerReport report, gate')) ∧
      (g.onFollowerReport partition report).seam.parked = taken.2 ∧
      (g.onFollowerReport partition report).seam.nextToken = g.seam.nextToken ∧
      (g.onFollowerReport partition report).outbox = taken.1.foldl deposit g.outbox := by
  cases hled : g.led partition with
  | none =>
    obtain ⟨e, he⟩ := applyFollowerReport_error report hled
    exact .inl ⟨rfl, by simp [onFollowerReport, onFollowerReportOwned, he]⟩
  | some l =>
    obtain ⟨isr, gate⟩ := l
    obtain ⟨c', hreport, hled'⟩ := applyFollowerReport_led report hled
    refine .inr ⟨isr, gate, _, _, _, rfl, rfl, rfl, ?_⟩
    simp only [onFollowerReport, onFollowerReportOwned, hreport, led,
      ownedBytesForTokens]
    exact ⟨hled', rfl, trivial, rfl⟩

end ClientAckGate

/-! ## The abstract gate -/

/-- A reply that was parked. -/
structure Park where
  member : Nat
  partition : Nat
  offset : Nat
  reply : Bytes

/-- The gate as its clients see it: the led partitions, the replies waiting in the table, everything
parked so far in the order of the tokens, what each connection has been given and what waits in its
outbox, and the quorum commits that were seen. -/
@[ext] structure AckView where
  led : Nat → Option (IsrTracker × QuorumAckGate Nat)
  parked : Nat → Option (Nat × Bytes)
  parks : List Park
  handed : Nat → List Bytes
  outbox : Nat → List Bytes
  commits : List (Nat × Nat)

namespace AckView

def reply (v : AckView) (token : Nat) : Bytes := (v.parks[token]?).elim [] Park.reply

def partitionOf (v : AckView) (token : Nat) : Option Nat := (v.parks[token]?).map Park.partition

def ownedBy (v : AckView) (member token : Nat) : Bool :=
  (v.parks[token]?).any (·.member = member)

/-- New frontiers for a partition. -/
def observe (v : AckView) (p : Nat) (isr : IsrTracker) (gate : QuorumAckGate Nat) : AckView :=
  { v with led := update v.led p (some (isr, gate)) }

/-- A reply goes to the back of its partition's gate. -/
def park (v : AckView) (isr : IsrTracker) (gate : QuorumAckGate Nat) (k : Park) : AckView :=
  { v with
    led := update v.led k.partition (some (isr,
      { gate with pending := gate.pending ++ [⟨k.offset, v.parks.length⟩] }))
    parked := update v.parked v.parks.length (some (k.member, k.reply))
    parks := v.parks ++ [k] }

/-- Released replies go to the outboxes of their owners. -/
def release (v : AckView) (p : Nat) (isr : IsrTracker) (gate : QuorumAckGate Nat)
    (tokens : List Nat) : AckView :=
  { v with
    led := update v.led p (some (isr, gate))
    parked := fun t => if t ∈ tokens then none else v.parked t
    outbox := fun m => v.outbox m ++ (tokens.filter (v.ownedBy m)).map v.reply
    commits := v.commits ++ isr.quorumCommit.toList.map (p, ·) }

def drain (v : AckView) (member : Nat) : AckView :=
  { v with
    handed := update v.handed member (v.handed member ++ v.outbox member)
    outbox := update v.outbox member [] }

/-- A gone connection's replies leave the gates, the table and its outbox. -/
def purge (v : AckView) (member : Nat) : AckView :=
  { v with
    led := fun p => (v.led p).map fun l =>
      (l.1, l.2.purgeWhere fun t => (v.parked t).any (·.1 = member))
    parked := fun t => if (v.parked t).any (·.1 = member) then none else v.parked t
    outbox := update v.outbox member [] }

/-- What holds of one led partition: its frontiers cover what is parked, its commit never moves
back, and its queue holds parked replies in the order of their tokens. -/
structure GateInv (v : AckView) (p : Nat) (isr : IsrTracker) (gate : QuorumAckGate Nat) : Prop where
  bounded : isr.Bounded
  synced : ∀ a ∈ gate.pending, saturatingAdd a.offset 1 ≤ isr.leaderFsynced
  through : ∀ x < gate.releasedThrough, isr.config.minIsr ≤ isr.reported x
  sorted : gate.pending.Pairwise fun a b => a.token < b.token
  pending : ∀ a ∈ gate.pending, ∃ k, v.parks[a.token]? = some k ∧ k.partition = p ∧
    k.offset = a.offset ∧ v.parked a.token = some (k.member, k.reply)

/-- A reply that left the gate for its owner: a commit past its offset was seen, and nothing parked
before it waits on its partition. -/
def Released (v : AckView) (member token : Nat) : Prop :=
  ∃ k, v.parks[token]? = some k ∧ k.member = member ∧
    (∃ c, (k.partition, c) ∈ v.commits ∧ k.offset < c) ∧
    ∀ isr gate, v.led k.partition = some (isr, gate) → ∀ a ∈ gate.pending, token < a.token

/-- The invariant, with the tokens of what each connection was given and of what waits for it. -/
structure Inv (v : AckView) (given waiting : Nat → List Nat) : Prop where
  gates : ∀ p isr gate, v.led p = some (isr, gate) → v.GateInv p isr gate
  table : ∀ t r, v.parked t = some r → ∃ p isr gate, v.led p = some (isr, gate) ∧
    ∃ a ∈ gate.pending, a.token = t
  handed : ∀ m, v.handed m = (given m).map v.reply
  outbox : ∀ m, v.outbox m = (waiting m).map v.reply
  released : ∀ m, ∀ t ∈ given m ++ waiting m, v.Released m t
  ordered : ∀ m, (given m ++ waiting m).Pairwise fun i j =>
    v.partitionOf i = v.partitionOf j → i < j

/-! ## What each operation keeps -/

variable {v v' : AckView} {given waiting : Nat → List Nat} {p : Nat}
  {isr isr' : IsrTracker} {gate gate' : QuorumAckGate Nat}
  {t : Nat} {k : Park} {tokens : List Nat}

theorem Released.lt {m : Nat} (h : v.Released m t) : t < v.parks.length := by
  obtain ⟨k, hk, -⟩ := h
  exact (List.getElem?_eq_some_iff.mp hk).1

/-- A released reply stays released as long as nothing parked before it comes back. -/
theorem Released.mono {m : Nat} (h : v.Released m t)
    (hparks : ∀ k, v.parks[t]? = some k → v'.parks[t]? = some k)
    (hcommits : ∀ x ∈ v.commits, x ∈ v'.commits)
    (hpending : ∀ p isr' gate', v'.led p = some (isr', gate') → ∀ a ∈ gate'.pending,
      (∃ isr gate, v.led p = some (isr, gate) ∧ a ∈ gate.pending) ∨ v.parks.length ≤ a.token) :
    v'.Released m t := by
  have hlt := h.lt
  obtain ⟨k, hk, hm, ⟨c, hc, hoff⟩, hbefore⟩ := h
  refine ⟨k, hparks k hk, hm, ⟨c, hcommits _ hc, hoff⟩, fun isr' gate' hled a ha => ?_⟩
  rcases hpending _ isr' gate' hled a ha with ⟨isr, gate, hold, hmem⟩ | hnew
  · exact hbefore isr gate hold a hmem
  · exact hlt.trans_le hnew

/-- New frontiers keep what holds of a partition. -/
theorem GateInv.advance (h : v.GateInv p isr gate) (hadv : isr.Advances isr') (hb : isr'.Bounded) :
    v.GateInv p isr' gate where
  bounded := hb
  synced a ha := (h.synced a ha).trans hadv.leader
  through x hx := by
    rw [hadv.config]
    exact (h.through x hx).trans (hadv.reported x)
  sorted := h.sorted
  pending := h.pending

/-- A partition after an update is the one updated, or is as before. -/
theorem led_update_cases {f : Nat → Option (IsrTracker × QuorumAckGate Nat)} {q : Nat}
    (h : update f p (some (isr', gate')) q = some (isr, gate)) :
    (q = p ∧ isr' = isr ∧ gate' = gate) ∨ (q ≠ p ∧ f q = some (isr, gate)) := by
  by_cases hqp : q = p
  · subst hqp
    rw [update_self] at h
    exact .inl ⟨rfl, Prod.mk.inj (Option.some.inj h)⟩
  · rw [update_of_ne hqp] at h
    exact .inr ⟨hqp, h⟩

/-- What waits on some partition still waits there after an update that keeps what waits. -/
theorem exists_led_update {f : Nat → Option (IsrTracker × QuorumAckGate Nat)}
    {Q : PendingAck Nat → Prop} (hled : f p = some (isr, gate))
    (hkeep : ∀ a ∈ gate.pending, Q a → a ∈ gate'.pending)
    (h : ∃ q isr₁ gate₁, f q = some (isr₁, gate₁) ∧ ∃ a ∈ gate₁.pending, Q a) :
    ∃ q isr₁ gate₁, update f p (some (isr', gate')) q = some (isr₁, gate₁) ∧
      ∃ a ∈ gate₁.pending, Q a := by
  obtain ⟨q, isr₁, gate₁, hq, a, ha, hQ⟩ := h
  by_cases hqp : q = p
  · subst hqp
    obtain ⟨rfl, rfl⟩ := Prod.mk.inj (Option.some.inj (hq.symm.trans hled))
    exact ⟨q, isr', gate', update_self .., a, hkeep a ha hQ, hQ⟩
  · exact ⟨q, isr₁, gate₁, (update_of_ne hqp ..).trans hq, a, ha, hQ⟩

/-- What waits after an update waited before it, or is new. -/
theorem pending_led_update {f : Nat → Option (IsrTracker × QuorumAckGate Nat)} {n : Nat}
    (hled : f p = some (isr, gate))
    (hkeep : ∀ a ∈ gate'.pending, a ∈ gate.pending ∨ n ≤ a.token) (q : Nat) (isr₁ : IsrTracker)
    (gate₁ : QuorumAckGate Nat) (hq : update f p (some (isr', gate')) q = some (isr₁, gate₁)) :
    ∀ a ∈ gate₁.pending, (∃ isr gate, f q = some (isr, gate) ∧ a ∈ gate.pending) ∨ n ≤ a.token := by
  intro a ha
  rcases led_update_cases hq with ⟨rfl, rfl, rfl⟩ | ⟨-, hq⟩
  · exact (hkeep a ha).imp_left fun hold => ⟨isr, gate, hled, hold⟩
  · exact .inl ⟨isr₁, gate₁, hq, ha⟩

theorem Inv.observe (h : v.Inv given waiting) (hled : v.led p = some (isr, gate))
    (hadv : isr.Advances isr') (hb : isr'.Bounded) : (v.observe p isr' gate).Inv given waiting where
  gates q isr₁ gate₁ hq := by
    rcases led_update_cases hq with ⟨rfl, rfl, rfl⟩ | ⟨-, hq⟩
    · exact { (h.gates _ _ _ hled).advance hadv hb with }
    · exact { h.gates _ _ _ hq with }
  table t r ht := exists_led_update hled (fun _ ha _ => ha) (h.table t r ht)
  handed := h.handed
  outbox := h.outbox
  released m t ht := (h.released m t ht).mono (fun _ hk => hk) (fun _ hx => hx)
    (pending_led_update hled fun _ => .inl)
  ordered := h.ordered

/-! ### Parking -/

/-- What was parked before keeps its token. -/
theorem getElem?_parks_park {k' : Park} (h : v.parks[t]? = some k') :
    (v.park isr gate k).parks[t]? = some k' := by
  rw [park, List.getElem?_append_left (List.getElem?_eq_some_iff.mp h).1]
  exact h

theorem reply_park (ht : t < v.parks.length) :
    (v.park isr gate k).reply t = v.reply t := by
  rw [reply, reply, park, getElem?_append_left ht]

theorem partitionOf_park (ht : t < v.parks.length) :
    (v.park isr gate k).partitionOf t = v.partitionOf t := by
  rw [partitionOf, partitionOf, park, getElem?_append_left ht]

theorem GateInv.token_lt (h : v.GateInv p isr gate) {a : PendingAck Nat} (ha : a ∈ gate.pending) :
    a.token < v.parks.length := by
  obtain ⟨k, hk, -⟩ := h.pending a ha
  exact (List.getElem?_eq_some_iff.mp hk).1

/-- Fewer replies wait on a partition, and the table keeps those that do. -/
theorem GateInv.keep (h : v.GateInv p isr gate)
    (hparks : ∀ (t : Nat) k, v.parks[t]? = some k → v'.parks[t]? = some k)
    (hsub : gate'.pending.Sublist gate.pending)
    (hthrough : ∀ x < gate'.releasedThrough, isr.config.minIsr ≤ isr.reported x)
    (htable : ∀ a ∈ gate'.pending, v'.parked a.token = v.parked a.token) :
    v'.GateInv p isr gate' where
  bounded := h.bounded
  synced a ha := h.synced a (hsub.subset ha)
  through := hthrough
  sorted := h.sorted.sublist hsub
  pending a ha := by
    obtain ⟨k, hk, hp, hoff, hparked⟩ := h.pending a (hsub.subset ha)
    exact ⟨k, hparks _ k hk, hp, hoff, (htable a ha).trans hparked⟩

/-- A parking leaves what waits anywhere as it was. -/
theorem GateInv.park (h : v.GateInv p isr gate) : (v.park isr' gate' k).GateInv p isr gate :=
  h.keep (fun _ _ hk => getElem?_parks_park hk) (.refl _) h.through fun _ ha =>
    update_of_ne (Nat.ne_of_lt (h.token_lt ha)) ..

/-- The partition a reply is parked on. -/
theorem GateInv.park_self (h : v.GateInv k.partition isr gate)
    (hsync : saturatingAdd k.offset 1 ≤ isr.leaderFsynced) :
    (v.park isr gate k).GateInv k.partition isr
      { gate with pending := gate.pending ++ [⟨k.offset, v.parks.length⟩] } where
  bounded := h.bounded
  synced a ha := by
    rcases mem_append.mp ha with ha | ha
    · exact h.synced a ha
    · rw [mem_singleton.mp ha]
      exact hsync
  through := h.through
  sorted := by
    refine pairwise_append.mpr ⟨h.sorted, pairwise_singleton _ _, fun a ha b hb => ?_⟩
    rw [mem_singleton.mp hb]
    exact h.token_lt ha
  pending a ha := by
    rcases mem_append.mp ha with ha | ha
    · exact (h.park).pending a ha
    · rw [mem_singleton.mp ha]
      exact ⟨k, getElem?_concat_length, rfl, rfl, update_self ..⟩

section

variable (h : v.Inv given waiting)

include h

theorem Inv.park (hled : v.led k.partition = some (isr, gate))
    (hsync : saturatingAdd k.offset 1 ≤ isr.leaderFsynced) :
    (v.park isr gate k).Inv given waiting where
  gates q isr₁ gate₁ hq := by
    rcases led_update_cases hq with ⟨rfl, rfl, rfl⟩ | ⟨-, hq⟩
    · exact (h.gates _ _ _ hled).park_self hsync
    · exact (h.gates _ _ _ hq).park
  table t r ht := by
    by_cases hnew : t = v.parks.length
    · exact ⟨k.partition, isr, _, update_self .., ⟨k.offset, v.parks.length⟩, by simp,
        hnew.symm⟩
    · have ht : v.parked t = some r := (update_of_ne hnew ..).symm.trans ht
      exact exists_led_update hled (fun a ha _ => mem_append_left _ ha) (h.table t r ht)
  handed m := by
    refine (h.handed m).trans (map_congr_left fun t ht => ?_)
    exact (reply_park (h.released m t (mem_append_left _ ht)).lt).symm
  outbox m := by
    refine (h.outbox m).trans (map_congr_left fun t ht => ?_)
    exact (reply_park (h.released m t (mem_append_right _ ht)).lt).symm
  released m t ht := (h.released m t ht).mono (fun _ hk => getElem?_parks_park hk)
    (fun _ hx => hx) (pending_led_update hled fun a ha => by
      rcases mem_append.mp ha with ha | ha
      · exact .inl ha
      · rw [mem_singleton.mp ha]
        exact .inr le_rfl)
  ordered m := by
    refine (h.ordered m).imp_of_mem fun {i j} hi hj hij hp => hij ?_
    rwa [partitionOf_park (h.released m i hi).lt, partitionOf_park (h.released m j hj).lt] at hp

/-! ### Releasing -/

omit h in
/-- Two partitions share no token. -/
theorem GateInv.partition_eq {q : Nat} (h : v.GateInv p isr gate) (h' : v.GateInv q isr' gate')
    {a b : PendingAck Nat} (ha : a ∈ gate.pending) (hb : b ∈ gate'.pending)
    (heq : a.token = b.token) : p = q := by
  obtain ⟨k, hk, rfl, -⟩ := h.pending a ha
  obtain ⟨k', hk', rfl, -⟩ := h'.pending b hb
  rw [heq, hk'] at hk
  rw [Option.some.inj hk]

theorem Inv.release (hled : v.led p = some (isr, gate))
    (hrel : gate.releaseUpTo isr.quorumCommit = (tokens, gate')) :
    (v.release p isr gate' tokens).Inv given
      fun m => waiting m ++ tokens.filter (v.ownedBy m) := by
  have hg := h.gates _ _ _ hled
  obtain ⟨hthrough, front, happ, rfl, hdue⟩ := release_committed hg.through hrel
  have hfront : ∀ a ∈ front, a ∈ gate.pending := fun a ha => happ ▸ mem_append_left _ ha
  have hsub : gate'.pending.Sublist gate.pending := happ ▸ sublist_append_right _ _
  obtain ⟨hsorted, -, hlt⟩ := pairwise_append.mp (happ ▸ hg.sorted)
  refine ⟨?_, ?_, h.handed, ?_, ?_, ?_⟩
  · -- what stays behind on this partition is past everything released, and other partitions
    -- share no token with it
    intro q isr₁ gate₁ hq
    rcases led_update_cases hq with ⟨rfl, rfl, rfl⟩ | ⟨hne, hq⟩
    · refine hg.keep (fun _ _ hk => hk) hsub hthrough fun a ha => if_neg fun hmem => ?_
      obtain ⟨b, hb, hbt⟩ := mem_map.mp hmem
      exact Nat.ne_of_lt (hlt b hb a ha) hbt
    · have hg' := h.gates _ _ _ hq
      refine hg'.keep (fun _ _ hk => hk) (.refl _) hg'.through fun a ha => if_neg fun hmem => ?_
      obtain ⟨b, hb, hbt⟩ := mem_map.mp hmem
      exact hne (hg'.partition_eq hg ha (hfront b hb) hbt.symm)
  · intro t r ht
    have hnot : t ∉ front.map PendingAck.token := fun hmem => by
      rw [AckView.release] at ht
      simp [hmem] at ht
    have ht : v.parked t = some r := (if_neg hnot).symm.trans ht
    refine exists_led_update hled (fun a ha hat => ?_) (h.table t r ht)
    rcases mem_append.mp (happ ▸ ha) with ha | ha
    · exact absurd (hat ▸ mem_map_of_mem ha) hnot
    · exact ha
  · intro m
    rw [map_append]
    exact congrArg (· ++ _) (h.outbox m)
  · intro m t ht
    rw [← append_assoc] at ht
    rcases mem_append.mp ht with ht | ht
    · exact (h.released m t ht).mono (fun _ hk => hk) (fun _ hx => mem_append_left _ hx)
        (pending_led_update hled fun a ha => .inl (hsub.subset ha))
    · obtain ⟨hmem, howned⟩ := mem_filter.mp ht
      obtain ⟨a, ha, rfl⟩ := mem_map.mp hmem
      obtain ⟨k, hk, rfl, hoff, -⟩ := hg.pending a (hfront a ha)
      obtain ⟨c, hc, hac⟩ := hdue a ha
      refine ⟨k, hk, ?_, ⟨c, ?_, hoff ▸ hac⟩, fun isr₁ gate₁ hq b hb => ?_⟩
      · simpa [ownedBy, hk] using howned
      · exact mem_append_right _ (by simp [hc])
      · rw [show (v.release _ isr gate' _).led k.partition = _ from update_self ..] at hq
        obtain ⟨rfl, rfl⟩ := Prod.mk.inj (Option.some.inj hq)
        exact hlt a ha b hb
  · intro m
    rw [← append_assoc]
    refine pairwise_append.mpr ⟨h.ordered m, ?_, fun i hi j hj hp => ?_⟩
    · have hs : (front.map PendingAck.token).Pairwise (· < ·) := pairwise_map.mpr hsorted
      refine (hs.filter (v.ownedBy m)).imp ?_
      intro i j hij _
      exact hij
    · obtain ⟨a, ha, rfl⟩ := mem_map.mp (mem_filter.mp hj).1
      obtain ⟨k, hk, hkp, -⟩ := hg.pending a (hfront a ha)
      obtain ⟨k', hk', -, -, hbefore⟩ := h.released m i hi
      have hpart : k'.partition = p := by
        have : v.partitionOf i = v.partitionOf a.token := hp
        simpa [partitionOf, hk, hk', hkp] using this
      exact hbefore isr gate (hpart ▸ hled) a (hfront a ha)

/-! ### Draining and disconnecting -/

/-- An outbox is emptied. -/
theorem Inv.outbox_clear (m m' : Nat) :
    update v.outbox m [] m' = (update waiting m [] m').map v.reply := by
  by_cases hm : m' = m
  · subst hm
    rw [update_self, update_self, map_nil]
  · rw [update_of_ne hm, update_of_ne hm]
    exact h.outbox m'

theorem Inv.drain (m : Nat) :
    (v.drain m).Inv (update given m (given m ++ waiting m))
      (update waiting m []) := by
  have happ : ∀ m', update given m (given m ++ waiting m) m'
      ++ update waiting m [] m' = given m' ++ waiting m' := by
    intro m'
    by_cases hm : m' = m
    · subst hm
      simp
    · rw [update_of_ne hm, update_of_ne hm]
  refine ⟨fun p isr gate hled => { h.gates p isr gate hled with }, h.table, fun m' => ?_,
    h.outbox_clear m, fun m' => ?_, fun m' => ?_⟩
  · by_cases hm : m' = m
    · subst hm
      rw [update_self, map_append]
      exact (update_self ..).trans (congrArg₂ _ (h.handed m') (h.outbox m'))
    · rw [update_of_ne hm]
      exact (update_of_ne hm ..).trans (h.handed m')
  · rw [happ]
    exact h.released m'
  · rw [happ]
    exact h.ordered m'

theorem Inv.purge (m : Nat) :
    (v.purge m).Inv given (update waiting m []) := by
  have hled : ∀ p isr gate', (v.purge m).led p = some (isr, gate') → ∃ gate,
      v.led p = some (isr, gate) ∧
        gate' = gate.purgeWhere fun t => (v.parked t).any (·.1 = m) := by
    intro p isr gate' hp
    obtain ⟨⟨isr₁, gate⟩, hgate, heq⟩ := Option.map_eq_some_iff.mp hp
    obtain ⟨rfl, rfl⟩ := Prod.mk.inj heq
    exact ⟨gate, hgate, rfl⟩
  have hsub : ∀ m', (update waiting m [] m').Sublist (waiting m') := by
    intro m'
    by_cases hm : m' = m
    · subst hm
      simp
    · rw [update_of_ne hm]
  refine ⟨fun p isr gate' hp => ?_, fun t r ht => ?_, h.handed, h.outbox_clear m,
    fun m' t ht => ?_, fun m' => ?_⟩
  · obtain ⟨gate, hgate, rfl⟩ := hled p isr gate' hp
    have hg := h.gates _ _ _ hgate
    refine hg.keep (fun _ _ hk => hk) filter_sublist hg.through fun a ha => if_neg ?_
    simpa using (mem_filter.mp ha).2
  · have halive : (v.parked t).any (·.1 = m) = false := by
      by_contra hany
      rw [AckView.purge] at ht
      simp [Bool.eq_true_of_not_eq_false hany] at ht
    have ht : v.parked t = some r := (if_neg (by simp [halive])).symm.trans ht
    obtain ⟨p, isr, gate, hgate, a, ha, rfl⟩ := h.table t r ht
    refine ⟨p, isr, _, Option.map_eq_some_iff.mpr ⟨_, hgate, rfl⟩, a, ?_, rfl⟩
    exact mem_filter.mpr ⟨ha, by simp [halive]⟩
  · have ht : t ∈ given m' ++ waiting m' := ((hsub m').append_left (given m')).subset ht
    refine (h.released m' t ht).mono (fun _ hk => hk) (fun _ hx => hx) fun p isr gate' hp a ha => ?_
    obtain ⟨gate, hgate, rfl⟩ := hled p isr gate' hp
    exact .inl ⟨isr, gate, hgate, (mem_filter.mp ha).1⟩
  · exact (h.ordered m').sublist ((hsub m').append_left (given m'))

/-! ### The code's tables -/

/-- The owner and the reply of a token. -/
def owned (v : AckView) (token : Nat) : Nat × Bytes :=
  (v.parks[token]?).elim (0, []) fun k => (k.member, k.reply)

omit h in
/-- Depositing the replies of parked tokens puts each behind what waits for its owner. -/
theorem getD_foldl_deposit (outbox : NatMap (List Bytes)) (m : Nat)
    (h : ∀ t ∈ tokens, t < v.parks.length) :
    (((tokens.map v.owned).foldl ClientAckGate.deposit outbox).get m).getD []
      = (outbox.get m).getD [] ++ (tokens.filter (v.ownedBy m)).map v.reply := by
  induction tokens generalizing outbox with
  | nil => simp
  | cons t tokens ih =>
    rw [map_cons, foldl_cons, ih _ fun t' ht' => h t' (mem_cons_of_mem _ ht')]
    obtain ⟨k, hk⟩ : ∃ k, v.parks[t]? = some k :=
      ⟨_, getElem?_eq_getElem (h t mem_cons_self)⟩
    by_cases hm : k.member = m
    · rw [filter_cons_of_pos (by simp [ownedBy, hk, hm])]
      simp [ClientAckGate.deposit, owned, hk, hm, reply]
    · rw [filter_cons_of_neg (by simp [ownedBy, hk, hm]), ClientAckGate.deposit,
        get_insert_of_ne (by simpa [owned, hk] using Ne.symm hm)]

/-- Released tokens are distinct, and the table holds the reply of each. -/
theorem Inv.released_tokens (hled : v.led p = some (isr, gate))
    (hrel : gate.releaseUpTo isr.quorumCommit = (tokens, gate')) :
    tokens.Nodup ∧ ∀ t ∈ tokens, t < v.parks.length ∧ v.parked t = some (v.owned t) := by
  have hg := h.gates _ _ _ hled
  obtain ⟨-, front, happ, rfl, -⟩ := release_committed hg.through hrel
  obtain ⟨hsorted, -, -⟩ := pairwise_append.mp (happ ▸ hg.sorted)
  refine ⟨(pairwise_map.mpr hsorted).imp Nat.ne_of_lt, fun t ht => ?_⟩
  obtain ⟨a, ha, rfl⟩ := mem_map.mp ht
  have hmem : a ∈ gate.pending := happ ▸ mem_append_left _ ha
  obtain ⟨k, hk, -, -, hparked⟩ := hg.pending a hmem
  exact ⟨hg.token_lt hmem, by simpa [owned, hk] using hparked⟩

/-- Taking the replies of released tokens gives what they own. -/
theorem Inv.takeReplies {table : NatMap (Nat × Bytes)} (hled : v.led p = some (isr, gate))
    (hrel : gate.releaseUpTo isr.quorumCommit = (tokens, gate')) (htable : table.get = v.parked) :
    (takeReplies tokens table).1 = tokens.map v.owned ∧
      (takeReplies tokens table).2.get
        = fun t => if t ∈ tokens then none else v.parked t := by
  obtain ⟨hnodup, hget⟩ := h.released_tokens hled hrel
  obtain ⟨hreplies, hparked⟩ := takeReplies_spec v.owned hnodup
    fun t ht => htable ▸ (hget t ht).2
  exact ⟨hreplies, htable ▸ funext hparked⟩

end

/-! ### A producer's call -/

/-- The leader's frontier moves ahead, the reply is parked, and what is due is released. -/
def call (v : AckView) (isr : IsrTracker) (gate gate' : QuorumAckGate Nat) (k : Park)
    (tokens : List Nat) : AckView :=
  ((v.observe k.partition isr gate).park isr gate k).release k.partition isr gate' tokens

theorem led_call :
    (v.call isr gate gate' k tokens).led = update v.led k.partition (some (isr, gate')) :=
  (update_idem ..).trans (update_idem ..)

/-- A call that releases nothing leaves the outboxes as they were. -/
theorem outbox_call_nil : (v.call isr gate gate' k []).outbox = v.outbox :=
  funext fun _ => append_nil _

/-- A call that releases its own reply puts it into the caller's outbox. -/
theorem outbox_call_own :
    (v.call isr gate gate' k [v.parks.length]).outbox
      = update v.outbox k.member (v.outbox k.member ++ [k.reply]) := by
  funext m
  by_cases hm : m = k.member
  · subst hm
    rw [update_self]
    simp [call, release, park, observe, ownedBy, reply]
  · rw [update_of_ne hm]
    simp [call, release, park, observe, ownedBy, Ne.symm hm]

theorem Inv.call (h : v.Inv given waiting) (hled : v.led k.partition = some (isr, gate))
    (hadv : isr.Advances isr') (hb : isr'.Bounded)
    (hsync : saturatingAdd k.offset 1 ≤ isr'.leaderFsynced)
    (hrel : releaseUpTo
      { gate with pending := gate.pending ++ [⟨k.offset, v.parks.length⟩] } isr'.quorumCommit
      = (tokens, gate')) :
    (∃ waiting', (v.call isr' gate gate' k tokens).Inv given waiting') ∧
      ∀ table : NatMap (Nat × Bytes), table.get = v.parked →
        (ProduceAckSeam.takeReplies tokens
          (table.insert v.parks.length (k.member, k.reply))).2.get
            = (v.call isr' gate gate' k tokens).parked := by
  have hpark : ((v.observe k.partition isr' gate).park isr' gate k).Inv given waiting :=
    (h.observe hled hadv hb).park (update_self ..) hsync
  have hled₂ : ((v.observe k.partition isr' gate).park isr' gate k).led k.partition = some _ :=
    update_self ..
  refine ⟨⟨_, hpark.release hled₂ hrel⟩, fun table htable => ?_⟩
  refine (hpark.takeReplies hled₂ hrel ?_).2
  rw [get_insert, htable]
  rfl

end AckView

/-! ## Runs -/

/-- The client gate with the run so far: the parked replies in the order of their tokens, what each
connection has been given, and the quorum commits seen, each with its partition. -/
structure AckWorld where
  gate : ClientAckGate
  parks : List Park
  handed : Nat → List Bytes
  commits : List (Nat × Nat)

namespace AckWorld

def start (controller : DataPlaneController) (level : ClusterAckLevel) : AckWorld :=
  ⟨.new controller level, [], fun _ => [], []⟩

/-- The quorum commits seen once the gate is in a state. -/
def seen (w : AckWorld) (g : ClientAckGate) (partition : Nat) : List (Nat × Nat) :=
  w.commits ++ (g.seam.controller.quorumCommit partition).toList.map (partition, ·)

/-- A producer's call; what it returns as a batch is written to its own connection. -/
def localAck (w : AckWorld) (member partition : Nat) (offset : UInt64) (reply : Bytes) : AckWorld :=
  match w.gate.onLocalFsyncedAck member partition offset.toNat reply with
  | (.parked, g) =>
    ⟨g, w.parks ++ [⟨member, partition, offset.toNat, reply⟩], w.handed, w.seen g partition⟩
  | (.writeNowBatch replies, g) =>
    ⟨g, w.parks ++ [⟨member, partition, offset.toNat, reply⟩],
      update w.handed member (w.handed member ++ replies), w.seen g partition⟩
  -- the other two park nothing: the caller answers its own produce
  | (.writeNow _, g) | (.rejected, g) => { w with gate := g }

def report (w : AckWorld) (partition followerId : Nat) (fsyncedOffset : UInt64) : AckWorld :=
  let g := w.gate.onFollowerReport partition ⟨followerId, fsyncedOffset.toNat⟩
  { w with gate := g, commits := w.seen g partition }

def drain (w : AckWorld) (member : Nat) : AckWorld :=
  let (replies, g) := w.gate.drainReleased member
  { w with gate := g, handed := update w.handed member (w.handed member ++ replies) }

def drop (w : AckWorld) (member : Nat) : AckWorld :=
  { w with gate := w.gate.dropConnection member }

/-- Nothing is due at the front of the partition's gate. And the caller has drained its outbox, or
its reply will wait: behind others, or for followers that have not reported past its offset. -/
def Clear (w : AckWorld) (member partition offset : Nat) : Prop :=
  match w.gate.led partition with
  | none => True
  | some (isr, gate) =>
    (gate.releaseUpTo isr.quorumCommit).1 = [] ∧
      (w.gate.outbox.get member = none ∨ gate.pending ≠ [] ∨
        isr.followers.values.countP (offset < ·) + 1 < isr.config.minIsr)

instance (w : AckWorld) (member partition offset : Nat) :
    Decidable (w.Clear member partition offset) := by
  unfold Clear
  split <;> infer_instance

/-- A controller at start: no ack waits, and every frontier is an offset. -/
def Idle (c : DataPlaneController) : Prop :=
  ∀ p isr gate, c.led p = some (isr, gate) → gate.pending = [] ∧ gate.releasedThrough = 0 ∧
    isr.Bounded

variable {c : DataPlaneController} {member partition : Nat}

theorem idle_new (nodeId : Nat) : Idle (.new nodeId) := by
  intro p isr gate hled
  simp [led, DataPlaneController.new] at hled

/-- A node that starts to lead a partition has nothing waiting there. -/
theorem idle_startLeader (h : Idle c) (partition : Nat) {plane : ReplicaLog}
    (hplane : plane.flushed ≤ u64Max) (replicaIds : List Nat) (config : IsrConfig) :
    Idle (c.startLeader partition plane replicaIds config) := by
  intro p isr gate hled
  rw [startLeader, led_insert] at hled
  rcases AckView.led_update_cases hled with ⟨rfl, rfl, rfl⟩ | ⟨-, hled⟩
  · exact ⟨rfl, rfl, (IsrTracker.bounded_new ..).observeLeaderFsync hplane⟩
  · exact h p isr gate hled

/-- The worlds reached by calls that each find their partition clear. -/
inductive Reach : AckWorld → Prop
  | start {c : DataPlaneController} (level : ClusterAckLevel) (h : Idle c) : Reach (start c level)
  | localAck {w : AckWorld} (member partition : Nat) (offset : UInt64) (reply : Bytes)
      (h : Reach w) (hclear : w.Clear member partition offset.toNat)
      (hroom : w.parks.length + 1 < 2 ^ 64) :
      Reach (w.localAck member partition offset reply)
  | report {w : AckWorld} (partition followerId : Nat) (fsyncedOffset : UInt64) (h : Reach w) :
      Reach (w.report partition followerId fsyncedOffset)
  | drain {w : AckWorld} (member : Nat) (h : Reach w) : Reach (w.drain member)
  | drop {w : AckWorld} (member : Nat) (h : Reach w) : Reach (w.drop member)

variable {w : AckWorld}

def view (w : AckWorld) : AckView where
  led := w.gate.led
  parked := w.gate.seam.parked.get
  parks := w.parks
  handed := w.handed
  outbox m := (w.gate.outbox.get m).getD []
  commits := w.commits

/-- The tokens number what was parked, and the view keeps the invariant. -/
def Good (w : AckWorld) : Prop :=
  w.gate.seam.nextToken = w.parks.length ∧ ∃ given waiting, w.view.Inv given waiting

theorem good_start (level : ClusterAckLevel) (h : Idle c) :
    (start c level).Good := by
  refine ⟨rfl, fun _ => [], fun _ => [], ⟨fun p isr gate hled => ?_, by simp [view, start,
    ClientAckGate.new, ProduceAckSeam.new], fun _ => rfl, fun _ => rfl, by simp, by simp⟩⟩
  obtain ⟨hpending, hthrough, hbounded⟩ := h p isr gate hled
  exact ⟨hbounded, by simp [hpending], by simp [hthrough], by simp [hpending], by simp [hpending]⟩

theorem good_report (h : w.Good) (partition followerId : Nat) (fsyncedOffset : UInt64) :
    (w.report partition followerId fsyncedOffset).Good := by
  obtain ⟨hnext, given, waiting, hinv⟩ := h
  rcases w.gate.onFollowerReport_cases partition ⟨followerId, fsyncedOffset.toNat⟩ with
    ⟨hnone, heq⟩ |
      ⟨isr, gate, tokens, gate', taken, hled, hrel, rfl, hled', hparked, hnext', houtbox⟩
  · have hsame : w.report partition followerId fsyncedOffset = w := by
      rw [ClientAckGate.led] at hnone
      simp [report, heq, seen, quorumCommit_eq, hnone]
    rw [hsame]
    exact ⟨hnext, given, waiting, hinv⟩
  · have hadv := isr.advances_observeFollowerReport ⟨followerId, fsyncedOffset.toNat⟩
    have hb : (isr.observeFollowerReport ⟨followerId, fsyncedOffset.toNat⟩).Bounded :=
      (hinv.gates _ _ _ hled).bounded.observeFollowerReport (toNat_le_u64Max fsyncedOffset)
    generalize isr.observeFollowerReport ⟨followerId, fsyncedOffset.toNat⟩ = isr' at *
    have hobs := hinv.observe hled hadv hb
    have hled₁ : (w.view.observe partition isr' gate).led partition = some (isr', gate) :=
      update_self ..
    obtain ⟨hreplies, htable⟩ := hobs.takeReplies hled₁ hrel rfl
    obtain ⟨-, hlt⟩ := hobs.released_tokens hled₁ hrel
    have hled₂ := congrFun hled' partition
    rw [update_self] at hled₂
    have hview : (w.report partition followerId fsyncedOffset).view
        = (w.view.observe partition isr' gate).release partition isr' gate' tokens := by
      ext1
      · exact hled'.trans (update_idem ..).symm
      · exact (congrArg get hparked).trans htable
      · rfl
      · rfl
      · funext m
        rw [hreplies] at houtbox
        exact (congrArg (fun ob : NatMap (List Bytes) => (ob.get m).getD []) houtbox).trans
          (AckView.getD_foldl_deposit w.gate.outbox m fun t ht => (hlt t ht).1)
      · rw [ClientAckGate.led] at hled₂
        simp [report, view, seen, quorumCommit_eq, hled₂, AckView.release, AckView.observe]
    exact ⟨hnext'.trans hnext, given, _, hview ▸ hobs.release hled₁ hrel⟩

theorem getD_get_erase (outbox : NatMap (List Bytes)) (member : Nat) :
    (fun m => ((outbox.erase member).get m).getD [])
      = update (fun m => (outbox.get m).getD []) member [] := by
  funext m
  by_cases hm : m = member
  · subst hm
    simp
  · rw [update_of_ne hm, get_erase_of_ne hm]

theorem good_drain (h : w.Good) (member : Nat) : (w.drain member).Good := by
  obtain ⟨hnext, given, waiting, hinv⟩ := h
  have hview : (w.drain member).view = w.view.drain member := by
    ext1 <;> first | rfl | exact getD_get_erase w.gate.outbox member
  exact ⟨hnext, _, _, hview ▸ hinv.drain member⟩

theorem good_drop (h : w.Good) (member : Nat) : (w.drop member).Good := by
  obtain ⟨hnext, given, waiting, hinv⟩ := h
  have hview : (w.drop member).view = w.view.purge member := by
    ext1
    · exact funext fun p => w.gate.seam.led_purgeOwner member p
    · exact funext fun t => w.gate.seam.get_parked_purgeOwner member t
    · rfl
    · rfl
    · exact getD_get_erase w.gate.outbox member
    · rfl
  refine ⟨?_, _, _, hview ▸ hinv.purge member⟩
  refine Eq.trans ?_ hnext
  simp only [drop, ClientAckGate.dropConnection, purgeOwner]
  split <;> rfl

/-- A call that finds its partition clear releases nothing but its own reply, and that only when
nothing else waits and enough followers have reported past its offset. -/
theorem released_own {offset : Nat} (h : w.Good) (hclear : w.Clear member partition offset)
    {isr : IsrTracker} {gate gate' : QuorumAckGate Nat} {tokens : List Nat}
    (hled : w.gate.led partition = some (isr, gate))
    (hrel : releaseUpTo
      { gate with pending := gate.pending ++ [⟨offset, w.gate.seam.nextToken⟩] }
      (isr.observeLeaderFsync (saturatingAdd offset 1)).quorumCommit = (tokens, gate')) :
    tokens = [] ∨ (tokens = [w.gate.seam.nextToken] ∧ gate.pending = [] ∧
      isr.config.minIsr ≤ isr.followers.values.countP (offset < ·) + 1) := by
  obtain ⟨-, given, waiting, hinv⟩ := h
  have hg := hinv.gates _ _ _ hled
  rw [Clear, hled] at hclear
  have hb := hg.bounded.observeLeaderFsync (n := saturatingAdd offset 1) (min_le_right _ _)
  rcases release_after_park hb hg.synced hclear.1 hrel with
    ⟨htokens, -⟩ | ⟨hempty, rfl, -⟩
  · exact .inl htokens
  refine .inr ⟨rfl, hempty, ?_⟩
  -- the reply released is below the new commit, which counts the leader and those followers
  have hthrough := (hg.advance (isr.advances_observeLeaderFsync _) hb).through
  rw [hempty, nil_append] at hrel
  obtain ⟨-, front, happ, htokens, hdue⟩ := release_committed
    (g := { gate with pending := [⟨offset, w.gate.seam.nextToken⟩] }) hthrough hrel
  obtain ⟨a, rfl, -⟩ := map_eq_singleton_iff.mp htokens.symm
  obtain ⟨rfl, -⟩ := cons.inj happ
  obtain ⟨c, hc, hlt⟩ := hdue _ mem_cons_self
  refine ((IsrTracker.lt_quorumCommit_iff hc).mp hlt).trans ?_
  rw [IsrTracker.reported, countP_cons]
  refine Nat.add_le_add le_rfl ?_
  split <;> decide

/-- A batch is the caller's own reply, and nobody else's. -/
theorem batch_own {offset : UInt64} {reply : Bytes} {replies : List Bytes} (h : w.Good)
    (hclear : w.Clear member partition offset.toNat)
    (hcall : (w.gate.onLocalFsyncedAck member partition offset.toNat reply).1 =
      .writeNowBatch replies) :
    replies = [reply] := by
  rcases w.gate.onLocalFsyncedAck_cases member partition offset.toNat reply with
    hnow | ⟨isr, gate, g', hled, -, ⟨hrej, -⟩ | ⟨tokens, gate', taken, hrel, rfl, heq, -⟩⟩
  · simp [hnow] at hcall
  · simp [hrej] at hcall
  · rw [heq] at hcall
    rcases released_own h hclear hled hrel with rfl | ⟨rfl, -⟩
    · simp [takeReplies] at hcall
    · simpa [takeReplies, eq_comm] using hcall

theorem good_localAck (h : w.Good) {offset : UInt64}
    (hclear : w.Clear member partition offset.toNat) (hroom : w.parks.length + 1 < 2 ^ 64)
    (reply : Bytes) :
    (w.localAck member partition offset reply).Good := by
  have hown := fun {isr gate gate' tokens} => @released_own _ _ _ _ h hclear isr gate gate' tokens
  obtain ⟨hnext, given, waiting, hinv⟩ := h
  rcases w.gate.onLocalFsyncedAck_cases member partition offset.toNat reply with
    hnow | ⟨isr, gate, g', hled, hout, hcall⟩
  · have hsame : w.localAck member partition offset reply = w := by simp [localAck, hnow]
    rw [hsame]
    exact ⟨hnext, given, waiting, hinv⟩
  have hown := fun {gate' tokens} => @hown isr gate gate' tokens hled
  have hadv := isr.advances_observeLeaderFsync (saturatingAdd offset.toNat 1)
  have hb : (isr.observeLeaderFsync (saturatingAdd offset.toNat 1)).Bounded :=
    (hinv.gates _ _ _ hled).bounded.observeLeaderFsync (min_le_right _ _)
  have hsync : saturatingAdd offset.toNat 1
      ≤ (isr.observeLeaderFsync (saturatingAdd offset.toNat 1)).leaderFsynced :=
        le_max_right _ _
  generalize isr.observeLeaderFsync (saturatingAdd offset.toNat 1) = isr' at *
  have hobs := hinv.observe hled hadv hb
  rcases hcall with ⟨hrej, hled', hparked, hnext'⟩ |
    ⟨tokens, gate', taken, hrel, rfl, hcall, hled', hparked, hnext'⟩
  · -- a refusal leaves only the leader's frontier behind
    have hworld : w.localAck member partition offset reply = { w with gate := g' } := by
      simp [localAck, hrej]
    have hview : (w.localAck member partition offset reply).view
        = w.view.observe partition isr' gate := by
      rw [hworld]
      ext1
      · exact hled'
      · exact congrArg get hparked
      · rfl
      · rfl
      · exact congrArg (fun (ob : NatMap (List Bytes)) m => (ob.get m).getD []) hout
      · rfl
    exact ⟨hworld ▸ hnext'.trans hnext, given, waiting, hview ▸ hobs⟩
  · -- a parking is followed by a release, and what that releases the caller takes at once
    let k : Park := ⟨member, partition, offset.toNat, reply⟩
    have hown := hown hrel
    rw [hnext] at hrel hcall hparked hnext' hown
    obtain ⟨⟨waiting', hinv'⟩, htable⟩ := AckView.Inv.call hinv (k := k) hled hadv hb hsync hrel
    have hled₃ : g'.led partition = some (isr', gate') := by rw [hled', update_self]
    have hseen : w.seen g' partition = w.commits
        ++ isr'.quorumCommit.toList.map (partition, ·) := by
      rw [seen, quorumCommit_eq, show g'.seam.controller.led _ = _ from hled₃, Option.bind_some]
    have hnext₂ : g'.seam.nextToken = (w.parks ++ [k]).length := by
      rw [hnext', Nat.mod_eq_of_lt hroom, length_append, length_singleton]
    have hparked' := (congrArg get hparked).trans (htable _ rfl)
    have houtbox : (fun m => (g'.outbox.get m).getD []) = w.view.outbox := by rw [hout]; rfl
    rcases hown with rfl | ⟨rfl, hempty, hcount⟩
    · have hworld : w.localAck member partition offset reply
          = ⟨g', w.parks ++ [k], w.handed, w.seen g' partition⟩ := by
        simp [localAck, hcall, takeReplies, k]
      have hview : (w.localAck member partition offset reply).view
          = w.view.call isr' gate gate' k [] := by
        rw [hworld]
        ext1
        · rw [AckView.led_call]
          exact hled'
        · exact hparked'
        · rfl
        · rfl
        · exact houtbox.trans AckView.outbox_call_nil.symm
        · exact hseen
      exact ⟨hworld ▸ hnext₂, given, waiting', hview ▸ hinv'⟩
    · have hworld : w.localAck member partition offset reply = ⟨g', w.parks ++ [k],
          update w.handed member (w.handed member ++ [reply]), w.seen g' partition⟩ := by
        simp [localAck, hcall, takeReplies, k]
      have houtbox₀ : w.view.outbox member = [] := by
        rw [Clear, hled] at hclear
        rcases hclear.2 with hnone | hwaits | hfew
        · simp [view, hnone]
        · exact absurd hempty hwaits
        · exact absurd hcount (not_le.mpr hfew)
      have hview : (w.localAck member partition offset reply).view
          = (w.view.call isr' gate gate' k [w.parks.length]).drain member := by
        rw [hworld]
        ext1
        · rw [AckView.drain, AckView.led_call]
          exact hled'
        · exact hparked'
        · rfl
        · rw [AckView.drain, show w.parks.length = w.view.parks.length from rfl,
            AckView.outbox_call_own, update_self, houtbox₀]
          rfl
        · rw [AckView.drain, show w.parks.length = w.view.parks.length from rfl,
            AckView.outbox_call_own, update_idem, ← houtbox₀, update_eq_self]
          exact houtbox
        · exact hseen
      exact ⟨hworld ▸ hnext₂, _, _, hview ▸ hinv'.drain member⟩

theorem Reach.good (h : Reach w) : w.Good := by
  induction h with
  | start level h => exact good_start level h
  | localAck member partition offset reply _ hclear hroom ih =>
    exact good_localAck ih hclear hroom reply
  | report partition followerId fsyncedOffset _ ih =>
    exact good_report ih partition followerId fsyncedOffset
  | drain member _ ih => exact good_drain ih member
  | drop member _ ih => exact good_drop ih member

/-! ## Delivery -/

/-- What a connection was given: distinct replies of its own, each below a quorum commit that was
seen, and those of one partition in the order they were parked. -/
def Delivered (w : AckWorld) (member : Nat) : Prop :=
  ∃ tokens : List Nat, w.handed member = tokens.map w.view.reply ∧ tokens.Nodup ∧
    (∀ t ∈ tokens, ∃ k, w.parks[t]? = some k ∧ k.member = member ∧
      ∃ c, (k.partition, c) ∈ w.commits ∧ k.offset < c) ∧
    tokens.Pairwise fun i j => w.view.partitionOf i = w.view.partitionOf j → i < j

/-- The tokens that wait in the gates, each in one place of one of them. -/
def TableExact (w : AckWorld) : Prop :=
  (∀ t, (∃ r, w.gate.seam.parked.get t = some r) ↔
    ∃ p isr gate, w.gate.led p = some (isr, gate) ∧ ∃ a ∈ gate.pending, a.token = t) ∧
  (∀ p isr gate, w.gate.led p = some (isr, gate) → (gate.pending.map PendingAck.token).Nodup) ∧
  ∀ p q isr isr' gate gate', w.gate.led p = some (isr, gate) → w.gate.led q = some (isr', gate') →
    ∀ a ∈ gate.pending, ∀ b ∈ gate'.pending, a.token = b.token → p = q

theorem Good.delivered (h : w.Good) (member : Nat) : w.Delivered member := by
  obtain ⟨-, given, waiting, hinv⟩ := h
  have hordered := pairwise_append.mp (hinv.ordered member) |>.1
  refine ⟨given member, hinv.handed member, hordered.imp ?_, fun t ht => ?_, hordered⟩
  · rintro i j hij rfl
    exact Nat.lt_irrefl i (hij rfl)
  · obtain ⟨k, hk, hm, hcommit, -⟩ := hinv.released member t (mem_append_left _ ht)
    exact ⟨k, hk, hm, hcommit⟩

theorem Good.tableExact (h : w.Good) : w.TableExact := by
  obtain ⟨-, given, waiting, hinv⟩ := h
  refine ⟨fun t => ⟨fun ⟨r, hr⟩ => hinv.table t r hr, ?_⟩, fun p isr gate hled => ?_, ?_⟩
  · rintro ⟨p, isr, gate, hled, a, ha, rfl⟩
    obtain ⟨k, -, -, -, hparked⟩ := (hinv.gates _ _ _ hled).pending a ha
    exact ⟨_, hparked⟩
  · exact (pairwise_map.mpr (hinv.gates _ _ _ hled).sorted).imp Nat.ne_of_lt
  · intro p q isr isr' gate gate' hp hq a ha b hb heq
    exact (hinv.gates _ _ _ hp).partition_eq (hinv.gates _ _ _ hq) ha hb heq

/-- Over every run whose calls find their partition clear: each reply reaches its
owner at most once, in order and only once committed, a batch is the caller's own reply alone, and
the table holds the tokens that wait in the gates. -/
theorem acks_delivered {w : AckWorld} (h : Reach w) :
    (∀ member, w.Delivered member) ∧
    (∀ member partition offset reply replies,
      w.Clear member partition (UInt64.toNat offset) →
      (w.gate.onLocalFsyncedAck member partition (UInt64.toNat offset) reply).1
        = .writeNowBatch replies → replies = [reply]) ∧
    w.TableExact :=
  ⟨h.good.delivered, fun _ _ _ _ _ hclear hcall => batch_own h.good hclear hcall,
    h.good.tableExact⟩

/-- A node that leads partition 0 with one follower, both of which a commit takes. -/
def pair : DataPlaneController :=
  (DataPlaneController.new 1).startLeader 0 .empty [1, 2] ⟨2, 0, by decide⟩

theorem idle_pair : Idle pair := idle_startLeader (idle_new 1) 0 (Nat.zero_le _) _ _

/-- Two replies are parked and the first is committed; while it waits in the outbox, a third is
parked behind the second. -/
def pipelined : AckWorld :=
  ((((start pair .c2Fsync).localAck 7 0 5 [1]).localAck 7 0 6 [2]).report 0 2 6).localAck 7 0 7 [3]

theorem acks_delivered_reported :
    (pipelined.drain 7).handed 7 = [[1]] ∧ (pipelined.drain 7).Delivered 7 := by
  have hfirst : Reach ((start pair .c2Fsync).localAck 7 0 5 [1]) :=
    .localAck 7 0 5 [1] (.start .c2Fsync idle_pair) (by decide) (by decide)
  have hsecond := Reach.localAck 7 0 6 [2] hfirst (by decide) (by decide)
  have hthird := Reach.localAck 7 0 7 [3] (hsecond.report 0 2 6) (by decide) (by decide)
  exact ⟨by decide, (acks_delivered (hthird.drain 7)).1 7⟩

/-- A disconnect unblocks the reply of connection 1, and the next call, of connection 3, is given
it in place of its own; and a call that commits at once overtakes what waits in its own outbox. -/
theorem batch_crosses_connections :
    let w := ((((start pair .c2Fsync).localAck 2 0 9 [9]).localAck 1 0 5 [5]).report 0 2 6).drop 2
    let v := ((start pair .c2Fsync).localAck 1 0 5 [5]).report 0 2 7
    (w.gate.onLocalFsyncedAck 3 0 10 [10]).1 = .writeNowBatch [[5]]
      ∧ ((v.localAck 1 0 6 [6]).drain 1).handed 1 = [[6], [5]] := by
  decide

end AckWorld

end IronBus
