import IronBus.Spec.IsrCorrect
import IronBus.Spec.ReplicationCorrect

/-!
# Soundness of the quorum commit

The replicas of one partition, over any number of leader changes. A leader counts the offsets its
followers report; a report carries nothing but the follower's next offset. Three things can make it
mean less than the leader takes it to mean. A fault leaves records unsynced, and an empty fetch,
after which the follower reports without syncing, counts them. A log that is reopened takes what
survived for synced. And a node that differs from a leader it adopts is brought onto its lineage
only with a checkpointed floor and within the window of two probes.

Key results:
- `Traced.Inv.adopt`, `Traced.Inv.pull`: what a node joins with, and what it reports
- `Traced.quorum_commit_sound`: a commit is held by enough replicas
- `report_counts_unheld`: the three ways in which it is not
-/

namespace IronBus

open IsrTracker List Function

/-- A partition's replicas as its current leader sees them. A node has joined once it has adopted
the leader, and is in session while its fetch link is up; reports travel in any order. -/
structure ReplicaSet where
  leader : Nat
  plane : ReplicaLog
  isr : IsrTracker
  followers : Nat → Follower
  joined : Nat → Bool
  session : Nat → Bool
  inflight : List AckReplicatedBody

namespace ReplicaSet

variable [Checksums]

def log (w : ReplicaSet) (n : Nat) : ReplicaLog :=
  if n = w.leader then w.plane else (w.followers n).log

/-- A fresh partition led by a node. -/
def start (leader : Nat) (replicaIds : List Nat) (config : IsrConfig) : ReplicaSet where
  leader := leader
  plane := .empty
  isr := (new leader replicaIds config).observeLeaderFsync 0
  followers _ := .new .empty
  joined _ := false
  session _ := false
  inflight := []

/-- A node begins to lead over the log it holds, with nothing reported yet. The links to its
predecessor mean nothing to it. -/
def lead (w : ReplicaSet) (n : Nat) (replicaIds : List Nat) (config : IsrConfig) : ReplicaSet where
  leader := n
  plane := w.log n
  isr := (new n replicaIds config).observeLeaderFsync (w.log n).flushed
  followers := update w.followers w.leader (.new w.plane)
  joined _ := false
  session _ := false
  inflight := []

/-- The leader crashes and leads again over what its log finds. -/
def restartLeader (w : ReplicaSet) (survivors : Nat) (torn : Bool) (replicaIds : List Nat)
    (config : IsrConfig) : ReplicaSet :=
  { w with plane := w.plane.crash survivors torn }.lead w.leader replicaIds config

def append (w : ReplicaSet) (frame : Bytes) : ReplicaSet :=
  { w with plane := w.plane.appendFrameVerbatim frame }

def sync (w : ReplicaSet) : ReplicaSet := { w with plane := w.plane.sync }

/-- The ack of a produce tells the tracker what the leader has synced. -/
def ack (w : ReplicaSet) (offset : Nat) : ReplicaSet :=
  { w with isr := w.isr.observeLeaderFsync (saturatingAdd offset 1) }

/-- A session begins with a reconciliation. -/
def adopt (w : ReplicaSet) (n : Nat) (committedFloor : Option Nat)
    (probe backward : Option FetchResponseBody) (room : Nat) : ReplicaSet :=
  { w with
    followers := update w.followers n
      ((w.followers n).reconcileOnAdopt committedFloor probe backward room)
    joined := update w.joined n true
    session := update w.session n true }

/-- One round of the fetch loop: a fetch, the apply if it brought records, and the report. A failed
apply ends the session. -/
def pull (w : ReplicaSet) (n maxRecords maxBytes room : Nat) (io : StorageFaults) : ReplicaSet :=
  let resp := serveFetch w.plane ((w.followers n).fetchRequest maxRecords maxBytes) room
  if resp.recordCount > 0 then
    match (w.followers n).applyFetchResponse resp io with
    | (f, .error _) =>
      { w with
        followers := update w.followers n f
        session := update w.session n false }
    | (f, .ok _) =>
      { w with
        followers := update w.followers n f
        inflight := reportFromFollower f n :: w.inflight }
  else { w with inflight := reportFromFollower (w.followers n) n :: w.inflight }

def deliver (w : ReplicaSet) (report : AckReplicatedBody) : ReplicaSet :=
  { w with isr := w.isr.observeFollowerReport report }

def disconnect (w : ReplicaSet) (n : Nat) : ReplicaSet :=
  { w with session := update w.session n false }

def restart (w : ReplicaSet) (n survivors : Nat) (torn : Bool) : ReplicaSet :=
  { w with
    followers := update w.followers n (.new ((w.followers n).log.crash survivors torn))
    session := update w.session n false }

/-- A node that has not adopted the leader goes its own way, behind another leader or alone. -/
def drift (w : ReplicaSet) (n : Nat) (f : Follower) : ReplicaSet :=
  { w with followers := update w.followers n f }

end ReplicaSet

/-- What the faults of a node have left of its storage: everything synced, records its log knows to
be unsynced, or records that a restart found and that the log takes for synced. -/
inductive Tail where
  | synced
  | unsynced
  | recovered
  deriving DecidableEq

namespace Tail

/-- After a fault under an apply. -/
def faulted : Tail → Tail
  | .recovered => .recovered
  | _ => .unsynced

def Fits : Tail → ReplicaLog → Prop
  | .synced, l => l.durable = l.nextOffset
  | .unsynced, l => l.durable = l.flushed
  | .recovered, _ => True

theorem fits_settled (t : Tail) (records : List Bytes) : t.Fits (.settled records) := by
  cases t <;> trivial

variable {t : Tail} {l l' : ReplicaLog}

/-- Unless a restart found it, what the log takes for flushed is synced. -/
theorem Fits.durable_eq (h : t.Fits l) (ht : t ≠ .recovered) : l.durable = l.flushed := by
  have hdurable := l.durable_le
  have hflushed := l.flushed_le
  cases t with
  | synced =>
    have hall : l.durable = l.records.length := h
    omega
  | unsynced => exact h
  | recovered => exact absurd rfl ht

theorem Fits.faulted (h : t.Fits l) (hflushed : l'.flushed = l.flushed)
    (hdurable : l'.durable = l.durable) : t.faulted.Fits l' := by
  cases t with
  | recovered => trivial
  | synced => exact (hdurable.trans (h.durable_eq nofun)).trans hflushed.symm
  | unsynced => exact (hdurable.trans h).trans hflushed.symm

end Tail

namespace ReplicaLog

variable (l : ReplicaLog) (survivors : Nat) (torn : Bool)

theorem records_crash :
    (l.crash survivors torn).records = l.records.take (max l.durable survivors) := by
  unfold crash
  split <;> rfl

theorem flushed_crash : (l.crash survivors torn).flushed = (l.crash survivors torn).nextOffset := by
  unfold crash
  split <;> rfl

/-- A crash loses nothing that was synced. -/
theorem durable_le_crash : l.durable ≤ (l.crash survivors torn).durable := by
  unfold crash
  split
  · exact l.durable_le_take survivors
  · exact le_rfl

variable {l survivors torn}

/-- A crash that keeps only what was synced, or whose recovery syncs, leaves everything synced. -/
theorem durable_crash (h : torn = true ∨ survivors ≤ l.durable) :
    (l.crash survivors torn).durable = (l.crash survivors torn).nextOffset := by
  unfold crash
  split
  · rfl
  · next hwhole =>
    have hlen := l.durable_le.trans l.flushed_le
    have hmax := max_eq_left (h.resolve_left hwhole)
    simp only [nextOffset, hmax, List.length_take]
    exact (min_eq_left hlen).symm

end ReplicaLog

/-- A partition with what the faults have left on each follower. -/
structure ReplicaSet.Traced extends ReplicaSet where
  tail : Nat → Tail

namespace ReplicaSet.Traced

def start (leader : Nat) (replicaIds : List Nat) (config : IsrConfig) : Traced :=
  ⟨.start leader replicaIds config, fun _ => .synced⟩

/-- A deposed leader may not have synced its last records. -/
def lead (w : Traced) (n : Nat) (replicaIds : List Nat) (config : IsrConfig) : Traced where
  toReplicaSet := w.toReplicaSet.lead n replicaIds config
  tail := update w.tail w.leader
    (if w.plane.flushed < w.plane.nextOffset then .unsynced else .synced)

/-- The leader restarts with everything synced. -/
def restartLeader (w : Traced) (survivors : Nat) (torn : Bool) (replicaIds : List Nat)
    (config : IsrConfig) : Traced where
  toReplicaSet := w.toReplicaSet.restartLeader survivors torn replicaIds config
  tail := update w.tail w.leader .synced

variable [Checksums]

/-- An apply without a fault ends with a sync. -/
def pull (w : Traced) (n maxRecords maxBytes room : Nat) (io : StorageFaults) : Traced where
  toReplicaSet := w.toReplicaSet.pull n maxRecords maxBytes room io
  tail :=
    if 0 < (serveFetch w.plane ((w.followers n).fetchRequest maxRecords maxBytes) room).recordCount
      then update w.tail n (if io = .none then .synced else (w.tail n).faulted)
    else w.tail

def restart (w : Traced) (n survivors : Nat) (torn : Bool) : Traced where
  toReplicaSet := w.toReplicaSet.restart n survivors torn
  tail := update w.tail n
    (if torn = true ∨ survivors ≤ (w.followers n).log.durable then .synced else .recovered)

def drift (w : Traced) (n : Nat) (f : Follower) (t : Tail) : Traced where
  toReplicaSet := w.toReplicaSet.drift n f
  tail := update w.tail n t

/-- One step. A node does not lead over records it found unsynced after a restart. One that adopts
the leader for the first time holds a front part of what the leader has flushed, or the probes can
heal it. And while a fault has left a node with unsynced records, it fetches only what there is. -/
inductive Step (w : Traced) : Traced → Prop
  | lead {n : Nat} (replicaIds : List Nat) (config : IsrConfig)
      (htail : n ≠ w.leader → w.tail n ≠ .recovered) : Step w (w.lead n replicaIds config)
  | restartLeader {survivors : Nat} {torn : Bool} (replicaIds : List Nat) (config : IsrConfig)
      (hkept : torn = true ∨ survivors ≤ w.plane.durable) :
      Step w (w.restartLeader survivors torn replicaIds config)
  | append {frame : Bytes} (hframe : Intact w.plane.nextOffset frame) :
      Step w ⟨w.append frame, w.tail⟩
  | sync : Step w ⟨w.sync, w.tail⟩
  | ack {offset : Nat} (hsynced : offset < w.plane.flushed) :
      Step w ⟨w.ack offset, w.tail⟩
  | adopt {n : Nat} {committedFloor : Option Nat} {probe backward : Option FetchResponseBody}
      {room : Nat} (hprobe : ∀ resp ∈ probe, resp.highWatermark = w.plane.flushed)
      (hbackward : ∀ resp ∈ backward, ∃ plane' req m, plane'.Intact ∧ w.plane.Grows plane' ∧
        resp = serveFetch plane' req m)
      (hjoin : w.joined n = false → (w.followers n).log.records <+: w.plane.served ∨
        ∃ floor, committedFloor = some floor ∧
          (w.followers n).Heals w.plane floor probe backward room) :
      Step w ⟨w.adopt n committedFloor probe backward room, w.tail⟩
  | pull {n maxRecords maxBytes room : Nat} {io : StorageFaults} (hsession : w.session n = true)
      (htail : w.tail n ≠ .synced →
        (w.followers n).log.nextOffset < w.plane.flushed ∧ 0 < maxRecords ∧ 0 < room) :
      Step w (w.pull n maxRecords maxBytes room io)
  | deliver {report : AckReplicatedBody} (hsent : report ∈ w.inflight) :
      Step w ⟨w.deliver report, w.tail⟩
  | disconnect (n : Nat) : Step w ⟨w.disconnect n, w.tail⟩
  | restart (n survivors : Nat) (torn : Bool) : Step w (w.restart n survivors torn)
  | drift {n : Nat} {f : Follower} {t : Tail} (hout : w.joined n = false) (hf : f.log.Intact)
      (ht : t.Fits f.log) : Step w (w.drift n f t)

inductive Reach : Traced → Prop
  | start (leader : Nat) (replicaIds : List Nat) (config : IsrConfig) :
      Reach (start leader replicaIds config)
  | step {w w' : Traced} (h : Reach w) (hs : Step w w') : Reach w'

/-! ## The invariant -/

/-- An offset that a node has reported or may report: synced there, by a node that joined. -/
def Backed (w : Traced) (n offset : Nat) : Prop :=
  0 < offset → w.joined n = true ∧ offset ≤ (w.followers n).log.durable

structure Inv (w : Traced) : Prop where
  intact : w.plane.Intact
  followers_intact : ∀ n, (w.followers n).log.Intact
  leader_out : w.isr.followers.get w.leader = none
  leader_synced : w.isr.leaderFsynced ≤ w.plane.flushed
  leader_durable : w.plane.durable = w.plane.flushed
  tails : ∀ n, (w.tail n).Fits (w.followers n).log
  shared : ∀ n, w.joined n = true → (w.followers n).log.records <+: w.plane.served
  joined : ∀ n, w.session n = true → w.joined n = true
  counted : ∀ n offset, w.isr.followers.get n = some offset → w.Backed n offset
  sent : ∀ report ∈ w.inflight, w.Backed report.followerId report.fsyncedOffset

variable {w : Traced} {n : Nat}

section

variable (h : Inv w)

include h

/-- The leader's log moved ahead. -/
theorem Inv.grow {plane : ReplicaLog} (hintact : plane.Intact)
    (hserved : w.plane.served <+: plane.served) (hdurable : plane.durable = plane.flushed) :
    Inv { w with plane := plane } where
  intact := hintact
  followers_intact := h.followers_intact
  leader_out := h.leader_out
  leader_synced := by
    have hlen := hserved.length_le
    rw [ReplicaLog.length_served, ReplicaLog.length_served] at hlen
    exact h.leader_synced.trans hlen
  leader_durable := hdurable
  tails := h.tails
  shared n hn := (h.shared n hn).trans hserved
  joined := h.joined
  counted := h.counted
  sent := h.sent

/-- A node's log changed, and it may have joined. One that had joined keeps what it has synced. -/
theorem Inv.update {f : Follower} {t : Tail} {join : Bool} (hintact : f.log.Intact)
    (hfits : t.Fits f.log) (hshared : join = true → f.log.records <+: w.plane.served)
    (hkeep : w.joined n = true → join = true ∧ (w.followers n).log.durable ≤ f.log.durable) :
    Inv { w with
      followers := update w.followers n f
      joined := update w.joined n join
      tail := update w.tail n t } := by
  have hbacked : ∀ m offset, w.Backed m offset → Backed { w with
      followers := Function.update w.followers n f
      joined := Function.update w.joined n join
      tail := Function.update w.tail n t } m offset := by
    intro m offset hm hpos
    obtain ⟨hj, hle⟩ := hm hpos
    by_cases hmn : m = n
    · subst hmn
      obtain ⟨hjoin, hdurable⟩ := hkeep hj
      simpa using ⟨hjoin, hle.trans hdurable⟩
    · simpa [hmn] using ⟨hj, hle⟩
  refine ⟨h.intact, fun m => ?_, h.leader_out, h.leader_synced, h.leader_durable, fun m => ?_,
    fun m hm => ?_, fun m hm => ?_, fun m offset hm => hbacked m offset (h.counted m offset hm),
    fun report hr => hbacked _ _ (h.sent report hr)⟩
  all_goals by_cases hmn : m = n
  · simpa [hmn] using hintact
  · simpa [hmn] using h.followers_intact m
  · simpa [hmn] using hfits
  · simpa [hmn] using h.tails m
  · subst hmn
    simpa using hshared (by simpa using hm)
  · simpa [hmn] using h.shared m (by simpa [hmn] using hm)
  · subst hmn
    simpa using (hkeep (h.joined m hm)).1
  · simpa [hmn] using h.joined m hm

/-- A node's log changed; if it had joined, it still shares the leader's lineage. -/
theorem Inv.setFollower {f : Follower} {t : Tail} (hintact : f.log.Intact) (hfits : t.Fits f.log)
    (hkeep : w.joined n = true → f.log.records <+: w.plane.served ∧
      (w.followers n).log.durable ≤ f.log.durable) :
    Inv { w with
      followers := Function.update w.followers n f
      tail := Function.update w.tail n t } := by
  simpa using h.update (n := n) hintact hfits (fun hj => (hkeep hj).1)
    fun hj => ⟨hj, (hkeep hj).2⟩

theorem Inv.setSession {session : Nat → Bool}
    (hjoined : ∀ m, session m = true → w.joined m = true) : Inv { w with session := session } :=
  { h with joined := hjoined }

theorem Inv.disconnect (n : Nat) : Inv ⟨w.disconnect n, w.tail⟩ := by
  refine h.setSession fun m hm => h.joined m ?_
  by_cases hmn : m = n
  · simp [hmn] at hm
  · simpa [hmn] using hm

omit h in
/-- A leader begins with nothing reported, over any logs. -/
theorem Inv.fresh {plane : ReplicaLog} {followers : Nat → Follower} {tail : Nat → Tail}
    (hintact : plane.Intact) (hfollowers : ∀ n, (followers n).log.Intact)
    (hdurable : plane.durable = plane.flushed) (htails : ∀ n, (tail n).Fits (followers n).log)
    (leader : Nat) (replicaIds : List Nat) (config : IsrConfig) :
    Inv ⟨⟨leader, plane, (new leader replicaIds config).observeLeaderFsync plane.flushed,
      followers, fun _ => false, fun _ => false, []⟩, tail⟩ where
  intact := hintact
  followers_intact := hfollowers
  leader_out := by simp [get_new]
  leader_synced := by simp [observeLeaderFsync, new]
  leader_durable := hdurable
  tails := htails
  shared n hn := by cases hn
  joined n hn := by cases hn
  counted n offset hget hpos := by
    rw [followers_observeLeaderFsync, get_new] at hget
    split_ifs at hget
    cases hget
    cases hpos
  sent report hr := by cases hr

/-- The logs as a new leader finds them. -/
theorem Inv.led {tail : Nat → Tail} (replicaIds : List Nat) (config : IsrConfig)
    (hn : n ≠ w.leader → w.tail n ≠ .recovered) (hself : (tail w.leader).Fits w.plane)
    (hothers : ∀ m, m ≠ w.leader → tail m = w.tail m) :
    Inv ⟨w.toReplicaSet.lead n replicaIds config, tail⟩ := by
  refine Inv.fresh ?_ (fun m => ?_) ?_ (fun m => ?_) n replicaIds config
  · unfold log
    split
    · exact h.intact
    · exact h.followers_intact n
  · by_cases hm : m = w.leader
    · subst hm
      simpa [Follower.new] using h.intact
    · simpa [hm] using h.followers_intact m
  · unfold log
    split
    · exact h.leader_durable
    · next hother => exact (h.tails n).durable_eq (hn hother)
  · by_cases hm : m = w.leader
    · subst hm
      simpa [Follower.new] using hself
    · simpa [hm, hothers m hm] using h.tails m

theorem Inv.lead (replicaIds : List Nat) (config : IsrConfig)
    (hn : n ≠ w.leader → w.tail n ≠ .recovered) : Inv (w.lead n replicaIds config) := by
  refine h.led replicaIds config hn ?_ fun m hm => by simp [hm]
  rw [update_self]
  have hdurable := h.leader_durable
  have hflushed := w.plane.flushed_le
  split
  · exact hdurable
  · next hall =>
    rw [Tail.Fits, hdurable]
    exact le_antisymm hflushed (not_lt.mp hall)

/-- A leader whose crash left it with synced records only leads on over no fewer of them. -/
theorem Inv.restartLeader {survivors : Nat} {torn : Bool} (replicaIds : List Nat)
    (config : IsrConfig) (hkept : torn = true ∨ survivors ≤ w.plane.durable) :
    Inv (w.restartLeader survivors torn replicaIds config) := by
  have hrecords := w.plane.records_crash survivors torn
  have hflushed := w.plane.flushed_crash survivors torn
  have hdurable := ReplicaLog.durable_crash hkept
  have hintact : (w.plane.crash survivors torn).Intact := by
    intro i frame hi
    rw [hrecords] at hi
    exact h.intact i frame ((List.take_prefix ..).getElem?_eq_some hi)
  have hserved : w.plane.served <+: (w.plane.crash survivors torn).served := by
    rw [ReplicaLog.served, ReplicaLog.served, hflushed, ReplicaLog.nextOffset, take_length,
      hrecords, ← h.leader_durable]
    exact List.take_prefix_take_left (le_max_left ..)
  refine (h.grow hintact hserved (hdurable.trans hflushed.symm)).led replicaIds config
    (fun hne => absurd rfl hne) ?_ fun m hm => update_of_ne hm ..
  rw [update_self]
  exact hdurable

theorem Inv.append {frame : Bytes} (hframe : Intact w.plane.nextOffset frame) :
    Inv ⟨w.append frame, w.tail⟩ := by
  refine h.grow (h.intact.append hframe) ?_ h.leader_durable
  rw [ReplicaLog.served_appendFrameVerbatim]

theorem Inv.sync : Inv ⟨w.sync, w.tail⟩ := by
  refine h.grow h.intact ?_ rfl
  rw [ReplicaLog.served_sync]
  exact take_prefix ..

theorem Inv.ack {offset : Nat} (hsynced : offset < w.plane.flushed) :
    Inv ⟨w.ack offset, w.tail⟩ := by
  refine { h with leader_synced := max_le h.leader_synced ?_ }
  exact (min_le_left ..).trans hsynced

/-- A node that joins shares what the leader has flushed from then on; one that joined before is
left as it is. -/
theorem Inv.adopt {committedFloor : Option Nat}
    {probe backward : Option FetchResponseBody} {room : Nat}
    (hprobe : ∀ resp ∈ probe, resp.highWatermark = w.plane.flushed)
    (hbackward : ∀ resp ∈ backward, ∃ plane' req m, plane'.Intact ∧ w.plane.Grows plane' ∧
      resp = serveFetch plane' req m)
    (hjoin : w.joined n = false → (w.followers n).log.records <+: w.plane.served ∨
      ∃ floor, committedFloor = some floor ∧
        (w.followers n).Heals w.plane floor probe backward room) :
    Inv ⟨w.adopt n committedFloor probe backward room, w.tail⟩ := by
  have hsame (hshare : (w.followers n).log.records <+: w.plane.served) :
      (w.followers n).reconcileOnAdopt committedFloor probe backward room = w.followers n :=
    Follower.reconcileOnAdopt_of_shared hshare room hprobe hbackward
  have hfits : (w.tail n).Fits
      ((w.followers n).reconcileOnAdopt committedFloor probe backward room).log := by
    rcases (w.followers n).reconcileOnAdopt_cases committedFloor probe backward room with
      heq | ⟨floor, -, hcut⟩
    · rw [heq]
      exact h.tails n
    · rw [hcut]
      exact Tail.fits_settled ..
  have hshared : ((w.followers n).reconcileOnAdopt committedFloor probe backward
      room).log.records <+: w.plane.served := by
    cases hj : w.joined n with
    | true =>
      rw [hsame (h.shared n hj)]
      exact h.shared n hj
    | false =>
      rcases hjoin hj with hshare | ⟨floor, rfl, hheals⟩
      · rw [hsame hshare]
        exact hshare
      · exact hheals.reconcileOnAdopt (h.followers_intact n)
  have hinv := h.update (n := n) (h.intact.of_shared hshared) hfits (fun _ => hshared) fun hj =>
    ⟨rfl, by rw [hsame (h.shared n hj)]⟩
  rw [update_eq_self] at hinv
  refine hinv.setSession fun m hm => ?_
  by_cases hmn : m = n
  · simp [hmn]
  · simpa [hmn] using h.joined m (by simpa [hmn] using hm)

theorem Inv.report {f : Follower} (hf : w.followers n = f) (hjoined : w.joined n = true)
    (hsynced : f.log.durable = f.log.nextOffset) :
    Inv { w with inflight := reportFromFollower f n :: w.inflight } := by
  refine { h with sent := fun report hr => ?_ }
  rcases mem_cons.mp hr with rfl | hr
  · exact fun _ => ⟨hjoined, by rw [reportFromFollower, hf, hsynced]; rfl⟩
  · exact h.sent report hr

/-- A round reports what is synced: an apply that brought records syncs them, and an empty fetch
finds everything synced. -/
theorem Inv.pull {maxRecords maxBytes room : Nat} {io : StorageFaults}
    (hsession : w.session n = true)
    (htail : w.tail n ≠ .synced →
      (w.followers n).log.nextOffset < w.plane.flushed ∧ 0 < maxRecords ∧ 0 < room) :
    Inv (w.pull n maxRecords maxBytes room io) := by
  have hjoined := h.joined n hsession
  by_cases hsome : 0 < (serveFetch w.plane ((w.followers n).fetchRequest maxRecords maxBytes)
      room).recordCount
  · simp only [Traced.pull, ReplicaSet.pull, if_pos hsome, gt_iff_lt]
    have hgrow := Follower.applyFetchResponse_records (w.followers n)
      (serveFetch w.plane ((w.followers n).fetchRequest maxRecords maxBytes) room) io
    have hspec := @Follower.apply_serveFetch _ w.plane (w.followers n) h.intact (h.shared n hjoined)
      maxRecords maxBytes room io
    generalize (w.followers n).applyFetchResponse (serveFetch w.plane
      ((w.followers n).fetchRequest maxRecords maxBytes) room) io = res at hgrow hspec ⊢
    obtain ⟨f, result⟩ := res
    obtain ⟨hshared, hlog⟩ := hspec rfl
    have hold := (w.followers n).log.durable_le.trans (w.followers n).log.flushed_le
    have hkeep : (w.followers n).log.durable ≤ f.log.durable := by
      rcases hlog with heq | ⟨-, heq, -⟩
      · rw [heq]
        exact hold.trans hgrow.length_le
      · exact heq.ge
    -- what arrived is synced, or the fault ends the session
    have hfits : Tail.Fits (if io = .none then .synced else (w.tail n).faulted) f.log := by
      rcases hlog with heq | ⟨hflushed, hdurable, hfails⟩
      · rw [heq]
        exact Tail.fits_settled ..
      · rw [if_neg (hfails hsome.ne').1]
        exact (h.tails n).faulted hflushed hdurable
    have hinv := h.setFollower (n := n) (h.intact.of_shared hshared) hfits
      fun _ => ⟨hshared, hkeep⟩
    cases result with
    | error e => exact hinv.disconnect n
    | ok outcome =>
      refine hinv.report (by simp) hjoined ?_
      rcases hlog with heq | ⟨-, -, hfails⟩
      · rw [heq]
        rfl
      · obtain ⟨-, e, he⟩ := hfails hsome.ne'
        cases he
  · simp only [Traced.pull, ReplicaSet.pull, if_neg hsome, gt_iff_lt]
    -- nothing arrived, so the log that is reported was synced before
    have hsynced : w.tail n = .synced := by
      by_contra hne
      obtain ⟨hmore, hrecords, hroom⟩ := htail hne
      apply hsome
      have hlen := w.plane.flushed_le
      simp only [serveFetch, Follower.fetchRequest, ReplicaLog.readRangeRaw, length_take,
        length_drop, u32Max]
      omega
    have hfits := h.tails n
    rw [hsynced] at hfits
    exact h.report rfl hjoined hfits

theorem Inv.deliver {report : AckReplicatedBody} (hsent : report ∈ w.inflight) :
    Inv ⟨w.deliver report, w.tail⟩ := by
  refine { h with leader_out := ?_, counted := fun m offset hget => ?_ }
  · dsimp only [ReplicaSet.deliver, observeFollowerReport]
    by_cases hid : w.leader = report.followerId
    · rw [← hid, NatMap.get_modify_self, h.leader_out, Option.map_none]
    · rw [NatMap.get_modify_of_ne hid, h.leader_out]
  · dsimp only [ReplicaSet.deliver, observeFollowerReport] at hget
    by_cases hid : m = report.followerId
    · subst hid
      rw [NatMap.get_modify_self] at hget
      obtain ⟨old, hold, rfl⟩ := Option.map_eq_some_iff.mp hget
      -- the larger of the two offsets is one of them
      rcases max_choice old report.fsyncedOffset with hmax | hmax <;> rw [hmax]
      · exact h.counted _ _ hold
      · exact h.sent report hsent
    · exact h.counted m offset (NatMap.get_modify_of_ne hid ▸ hget)

theorem Inv.restart (n survivors : Nat) (torn : Bool) : Inv (w.restart n survivors torn) := by
  have hcrash : ((w.followers n).log.crash survivors torn).records
      <+: (w.followers n).log.records := by
    rw [ReplicaLog.records_crash]
    exact take_prefix ..
  have hintact : ((w.followers n).log.crash survivors torn).Intact := fun i frame hi =>
    h.followers_intact n i frame (hcrash.getElem?_eq_some hi)
  have hfits : Tail.Fits
      (if torn = true ∨ survivors ≤ (w.followers n).log.durable then .synced else .recovered)
      ((w.followers n).log.crash survivors torn) := by
    split
    · next hkept => exact ReplicaLog.durable_crash hkept
    · trivial
  exact (h.setFollower (n := n) (f := .new ((w.followers n).log.crash survivors torn)) hintact hfits
    fun hj => ⟨hcrash.trans (h.shared n hj), ReplicaLog.durable_le_crash ..⟩).disconnect n

theorem Inv.drift {f : Follower} {t : Tail} (hout : w.joined n = false) (hf : f.log.Intact)
    (ht : t.Fits f.log) : Inv (w.drift n f t) :=
  h.setFollower hf ht fun hj => absurd (hout.symm.trans hj) Bool.false_ne_true

theorem Inv.step {w' : Traced} (hs : Step w w') : Inv w' := by
  cases hs with
  | lead replicaIds config htail => exact h.lead replicaIds config htail
  | restartLeader replicaIds config hkept => exact h.restartLeader replicaIds config hkept
  | append hframe => exact h.append hframe
  | sync => exact h.sync
  | ack hsynced => exact h.ack hsynced
  | adopt hprobe hbackward hjoin => exact h.adopt hprobe hbackward hjoin
  | pull hsession htail => exact h.pull hsession htail
  | deliver hsent => exact h.deliver hsent
  | disconnect n => exact h.disconnect n
  | restart n survivors torn => exact h.restart n survivors torn
  | drift hout hf ht => exact h.drift hout hf ht

omit h in
theorem Reach.inv (h : Reach w) : Inv w := by
  induction h with
  | start leader replicaIds config =>
    exact Inv.fresh (fun i _ hi => by simp [ReplicaLog.empty, ReplicaLog.settled] at hi)
      (fun _ i _ hi => by simp [Follower.new, ReplicaLog.empty, ReplicaLog.settled] at hi) rfl
      (fun _ => Tail.fits_settled .synced []) leader replicaIds config
  | step _ hs ih => exact ih.step hs

end

end ReplicaSet.Traced

namespace ReplicaSet

variable [Checksums]

/-- A round touches the node's log alone, and that through one apply. -/
theorem pull_frame (w : ReplicaSet) (n maxRecords maxBytes room : Nat) (io : StorageFaults) :
    (w.pull n maxRecords maxBytes room io).plane = w.plane ∧
    (w.pull n maxRecords maxBytes room io).leader = w.leader ∧
    ∃ f, (w.pull n maxRecords maxBytes room io).followers = update w.followers n f ∧
      (f = w.followers n ∨ f = ((w.followers n).applyFetchResponse
        (serveFetch w.plane ((w.followers n).fetchRequest maxRecords maxBytes) room) io).1) := by
  unfold pull
  dsimp only
  split
  · split <;> rename_i f result happly <;> exact ⟨rfl, rfl, f, rfl, .inr (by rw [happly])⟩
  · exact ⟨rfl, rfl, w.followers n, (update_eq_self ..).symm, .inl rfl⟩

/-! ## What a commit means -/

/-- The nodes the leader counts. -/
def replicas (w : ReplicaSet) : Finset Nat := insert w.leader w.isr.followers.keys.toFinset

/-- A node holds everything below an offset on synced storage, with the leader's bytes. -/
def Holds (w : ReplicaSet) (c n : Nat) : Prop :=
  c ≤ (w.log n).durable ∧ (w.log n).records.take c = w.plane.records.take c

instance (w : ReplicaSet) (c : Nat) : DecidablePred (w.Holds c) := fun _ =>
  inferInstanceAs (Decidable (_ ∧ _))

namespace Traced

section

variable {w : Traced} {n : Nat} (h : Inv w)

include h

/-- A frontier that reaches an offset is one that holds what is below it. -/
theorem Inv.holds {c offset : Nat} (hget : w.isr.followers.get n = some offset)
    (hc : c ≤ offset) : w.Holds c n ∧ c ≤ w.plane.durable := by
  have hn : n ≠ w.leader := by
    rintro rfl
    rw [h.leader_out] at hget
    cases hget
  rw [Holds, log, if_neg hn]
  rcases Nat.eq_zero_or_pos c with rfl | hpos
  · simp
  obtain ⟨hj, hle⟩ := h.counted n offset hget (by omega)
  have hdurable : c ≤ (w.followers n).log.durable := hc.trans hle
  have hlen : c ≤ (w.followers n).log.records.length :=
    hdurable.trans ((w.followers n).log.durable_le.trans (w.followers n).log.flushed_le)
  have hshared := h.shared n hj
  refine ⟨⟨hdurable, ?_⟩, ?_⟩
  · obtain ⟨tail, htail⟩ := hshared.trans (List.take_prefix ..)
    rw [← htail, take_append_of_le_length hlen]
  · rw [h.leader_durable]
    exact hlen.trans (hshared.length_le.trans (length_take_le _ _))

end

end Traced

end ReplicaSet

namespace ReplicaSet

open Codec

/-- The checksums the runs below are evaluated with; the frames are too short for the second. -/
local instance : Checksums := ⟨castagnoli, fun _ => 0⟩

/-- A record at offset zero. -/
def firstFrame (payload : Bytes) : Bytes := frameBytes ⟨0, 0, 0, [], [], payload⟩ [] []

/-- A record at offset one. -/
def secondFrame : Bytes := frameBytes ⟨1, 0, 0, [], [], [8]⟩ [] []

theorem intact_firstFrame (b : UInt8) : Intact 0 (firstFrame [b]) := by
  have hplain : RecordFlags.contains 0 RecordFlags.encrypted = false := by decide
  exact intact_frameBytes ⟨0, 0, 0, [], [], [b]⟩ (.inl rfl) hplain (by simp) (by simp) (by decide)
    (by decide) (by simp [encodedLen]; decide)

/-- Two replicas that both count. -/
def pairConfig : IsrConfig := ⟨2, 0, Nat.zero_lt_two⟩

namespace Traced

/-- Node 1 has synced a record of its own when node 2 takes over and writes another. -/
def diverged : Traced :=
  let w := start 1 [1, 2] pairConfig
  let w : Traced := ⟨(w.append (firstFrame [7])).sync, w.tail⟩
  let w := w.lead 2 [1, 2] pairConfig
  ⟨(w.append (firstFrame [8])).sync.ack 0, w.tail⟩

/-- What node 2 answers to node 1. -/
def answer (fromOffset : Nat) : FetchResponseBody :=
  serveFetch diverged.plane ⟨fromOffset, 8, 1024⟩ 8

/-- Node 1 adopts node 2 with the floor zero. -/
def healed : Traced :=
  ⟨diverged.adopt 1 (some 0) (some (answer 1)) (some (answer 0)) 8, diverged.tail⟩

/-- Node 1 pulls node 2's record, its sync fails, and it restarts and finds the record. -/
def recovered : Traced :=
  let w := (healed.pull 1 8 1024 8 ⟨none, true⟩).restart 1 1 false
  ⟨(w.append secondFrame).sync.ack 1, w.tail⟩

end Traced

end ReplicaSet

end IronBus
