import IronBus.ForStd.List
import IronBus.Native.EpochCache

/-!
# Where a follower and a leader diverge

Logs are seen as sequences of records stamped with the epoch they were appended under; the stamps
are not stored, the caches describe them. The walk over the follower's boundaries stops at the
newest epoch both caches hold and takes the smaller of its two ends.

Key results:
- `divergencePoint_eq_iff`: this is the end of the longest common front part unless the record just
  below it carries different stamps in the two logs
- `reconcile_iff`: when a follower that takes up an epoch truncates there
-/

namespace IronBus

open List

/-- A record and the epoch it was appended under. -/
structure Stamped where
  epoch : Nat
  frame : Bytes
  deriving DecidableEq

/-- Records of the same epoch at an offset have the same records below them. -/
def LogMatching (follower leader : List Stamped) : Prop :=
  ∀ (o : Nat) (f l : Stamped), follower[o]? = some f → leader[o]? = some l → f.epoch = l.epoch →
    follower.take (o + 1) = leader.take (o + 1)

instance (follower leader : List Stamped) : Decidable (LogMatching follower leader) :=
  decidable_of_iff (∀ o < follower.length, ∀ f ∈ follower[o]?, ∀ l ∈ leader[o]?,
      f.epoch = l.epoch → follower.take (o + 1) = leader.take (o + 1))
    ⟨fun h o f l hf hl => h o (List.getElem?_eq_some_iff.mp hf).1 f hf l hl,
      fun h o _ f hf l hl => h o f l hf hl⟩

namespace EpochCache

/-- A cache that gives every record its stamp. The newest epoch may begin where the log ends, with
nothing appended under it. -/
structure Describes (c : EpochCache) (log : List Stamped) : Prop where
  within : ∀ b ∈ c.entries, b.startOffset ≤ log.length
  stamped : ∀ (o : Nat) (r : Stamped), log[o]? = some r → c.epochForOffset o = some r.epoch

instance (c : EpochCache) (log : List Stamped) : Decidable (c.Describes log) :=
  decidable_of_iff ((∀ b ∈ c.entries, b.startOffset ≤ log.length)
      ∧ ∀ o < log.length, ∀ r ∈ log[o]?, c.epochForOffset o = some r.epoch)
    ⟨fun h => ⟨h.1, fun o r hr => h.2 o (List.getElem?_eq_some_iff.mp hr).1 r hr⟩,
      fun h => ⟨h.within, fun o _ r hr => h.stamped o r hr⟩⟩

/-- Where a range ends that is followed by the boundaries `newer`. -/
def rangeEnd (newer : List EpochEntry) (logEnd : Nat) : Nat :=
  (newer.head?.map EpochEntry.startOffset).getD logEnd

variable {c : EpochCache} {older newer : List EpochEntry} {b : EpochEntry} {epoch : Nat}
  {answer : Nat → LeaderEpochEndOffset}

/-- The boundaries of a cache around one of them. -/
theorem around (h : c.entries = older ++ b :: newer) :
    (∀ a ∈ older, a.Before b) ∧ ∀ a ∈ newer, b.Before a := by
  have hasc := c.ascending
  rw [h] at hasc
  obtain ⟨-, hb, hcross⟩ := pairwise_append.mp hasc
  exact ⟨fun a ha => hcross a ha b mem_cons_self, (pairwise_cons.mp hb).1⟩

theorem epochForOffset_of_mem {o : Nat} (h : c.entries = older ++ b :: newer)
    (hle : b.startOffset ≤ o) (hlt : ∀ a ∈ newer, o < a.startOffset) :
    c.epochForOffset o = some b.epoch := by
  have hpoint : (older ++ [b] ++ newer).partitionPoint (fun a => decide (a.startOffset ≤ o)) =
      (older ++ [b]).length := by
    refine partitionPoint_append (fun a ha => ?_) fun a ha => ?_
    · rcases mem_append.mp ha with ha | ha
      · exact decide_eq_true (((around h).1 a ha).2.le.trans hle)
      · rw [mem_singleton.mp ha]
        exact decide_eq_true hle
    · exact decide_eq_false (Nat.not_le_of_lt (hlt a ha))
  rw [epochForOffset, h, append_cons, hpoint]
  simp

/-- The boundary that gives an offset its epoch. -/
theorem epochForOffset_eq_some {o : Nat} (h : c.epochForOffset o = some epoch) :
    ∃ older b newer, c.entries = older ++ b :: newer ∧ b.epoch = epoch ∧ b.startOffset ≤ o
      ∧ ∀ a ∈ newer, o < a.startOffset := by
  rcases forall_or_exists_last (fun b : EpochEntry => b.startOffset ≤ o) c.entries with
    hnone | ⟨older, b, newer, hentries, hle, hnewer⟩
  · have hpoint :
      ([] ++ c.entries).partitionPoint (fun a : EpochEntry => decide (a.startOffset ≤ o)) = 0 :=
      partitionPoint_append nofun fun a ha => decide_eq_false (hnone a ha)
    rw [nil_append] at hpoint
    rw [epochForOffset, hpoint] at h
    cases h
  · have hlt : ∀ a ∈ newer, o < a.startOffset := fun a ha => not_le.mp (hnewer a ha)
    rw [epochForOffset_of_mem hentries hle hlt] at h
    cases h
    exact ⟨older, b, newer, hentries, rfl, hle, hlt⟩

/-! ## A log and its cache -/

section Describes

variable {c : EpochCache} {log : List Stamped}

/-- Every stamp has a boundary. -/
theorem Describes.held (h : c.Describes log) {o : Nat} {r : Stamped} (hr : log[o]? = some r) :
    ∃ b ∈ c.entries, b.epoch = r.epoch := by
  obtain ⟨older, b, newer, hentries, hepoch, -⟩ := epochForOffset_eq_some (h.stamped o r hr)
  exact ⟨b, by simp [hentries], hepoch⟩

/-- Past the end of a range the epochs are higher. -/
theorem Describes.epoch_lt (h : c.Describes log) {older newer : List EpochEntry} {b : EpochEntry}
    (hentries : c.entries = older ++ b :: newer) {o : Nat} {r : Stamped} (hr : log[o]? = some r)
    (ho : rangeEnd newer log.length ≤ o) : b.epoch < r.epoch := by
  obtain ⟨older', b', newer', hentries', hepoch, hle, hlt⟩ :=
    epochForOffset_eq_some (h.stamped o r hr)
  rw [← hepoch]
  match newer, hentries, ho with
  | [], _, ho => exact absurd (List.getElem?_eq_some_iff.mp hr).1 (not_lt_of_ge ho)
  | n :: newer, hentries, ho =>
    have hn : n.startOffset ≤ o := ho
    have hmem : n ∈ older' ++ b' :: newer' := by
      rw [← hentries', hentries]
      simp
    have hbn := (around hentries).2 n List.mem_cons_self
    rcases List.mem_append.mp hmem with hold | hnew
    · exact hbn.1.trans ((around hentries').1 n hold).1
    · rcases List.mem_cons.mp hnew with rfl | hnew
      · exact hbn.1
      · exact absurd (hlt n hnew) (not_lt_of_ge hn)

theorem Describes.rangeEnd_le_length (h : c.Describes log) {older newer : List EpochEntry}
    {b : EpochEntry} (hentries : c.entries = older ++ b :: newer) :
    rangeEnd newer log.length ≤ log.length := by
  match newer, hentries with
  | [], _ => exact le_rfl
  | n :: newer, hentries => exact h.within n (by simp [hentries])

theorem Describes.eq_nil (h : c.Describes log) (hc : c.entries = []) : log = [] := by
  match log, h with
  | [], _ => rfl
  | r :: log, h =>
    obtain ⟨b, hb, -⟩ := h.held (o := 0) (r := r) rfl
    rw [hc] at hb
    cases hb

end Describes

/-! ## The leader's answers -/

/-- An epoch the cache holds. -/
theorem endOffsetForEpoch_of_mem (h : c.entries = older ++ b :: newer) (logEnd : Nat) :
    c.endOffsetForEpoch b.epoch logEnd = ⟨b.epoch, b.epoch, rangeEnd newer logEnd⟩ := by
  have hpoint : (older ++ [b] ++ newer).partitionPoint (fun a => decide (a.epoch ≤ b.epoch)) =
      (older ++ [b]).length := by
    refine partitionPoint_append (fun a ha => ?_) fun a ha => ?_
    · rcases mem_append.mp ha with ha | ha
      · exact decide_eq_true ((around h).1 a ha).1.le
      · rw [mem_singleton.mp ha]
        exact decide_eq_true le_rfl
    · exact decide_eq_false (Nat.not_le_of_lt ((around h).2 a ha).1)
  have hentries : c.entries = older ++ [b] ++ newer := by rw [h, append_cons]
  simp only [endOffsetForEpoch, currentEpoch, hentries, hpoint]
  match newer with
  | [] => simp [rangeEnd]
  | n :: newer => simp [rangeEnd]

/-- The epochs the leader holds are the ones it answers for, except that a leader without any
boundary answers for the genesis epoch. -/
theorem held_of_answered {logEnd : Nat}
    (h : (c.endOffsetForEpoch epoch logEnd).answeredEpoch = epoch) :
    c.entries = [] ∨ ∃ b ∈ c.entries, b.epoch = epoch := by
  simp only [endOffsetForEpoch] at h
  split at h
  · next next hnext =>
    dsimp only at h
    split at h
    · next hheld =>
      obtain ⟨b, hb, hepoch⟩ := Option.map_eq_some_iff.mp hheld.2
      exact .inr ⟨b, mem_of_getElem? hb, hepoch⟩
    · exact .inr ⟨next, mem_of_getElem? hnext, h⟩
  · rcases hlast : c.entries.getLast? with _ | last
    · exact .inl (getLast?_eq_none_iff.mp hlast)
    · refine .inr ⟨last, mem_of_getLast? hlast, ?_⟩
      simpa [currentEpoch, hlast] using h

/-! ## The walk -/

theorem sharedPoint_of_none {entries : List EpochEntry}
    (h : ∀ b ∈ entries, (answer b.epoch).answeredEpoch ≠ b.epoch) (followerEnd : Nat) :
    sharedPoint answer entries followerEnd = none := by
  induction entries generalizing followerEnd with
  | nil => rfl
  | cons b entries ih =>
    rw [sharedPoint, if_neg (h b mem_cons_self)]
    exact ih (fun a ha => h a (mem_cons_of_mem _ ha)) _

theorem sharedPoint_append (hnewer : ∀ a ∈ newer, (answer a.epoch).answeredEpoch ≠ a.epoch)
    (hb : (answer b.epoch).answeredEpoch = b.epoch) (followerEnd : Nat) :
    sharedPoint answer (newer ++ b :: older) followerEnd =
      some ⟨min ((newer.getLast?.map EpochEntry.startOffset).getD followerEnd)
        (answer b.epoch).endOffset, b.epoch⟩ := by
  induction newer generalizing followerEnd with
  | nil => rw [nil_append, sharedPoint, if_pos hb]; rfl
  | cons a newer ih =>
    rw [cons_append, sharedPoint, if_neg (hnewer a mem_cons_self),
      ih fun x hx => hnewer x (mem_cons_of_mem _ hx)]
    rcases newer with _ | ⟨x, newer⟩
    · rfl
    · rw [getLast?_cons_cons, getLast?_cons]
      rfl

/-- The walk stops at the newest boundary the leader answers for. -/
theorem divergencePoint_of_answered (h : c.entries = older ++ b :: newer)
    (hnewer : ∀ a ∈ newer, (answer a.epoch).answeredEpoch ≠ a.epoch)
    (hb : (answer b.epoch).answeredEpoch = b.epoch) (logEnd : Nat) :
    (c.divergencePoint logEnd answer).truncateTo =
      min (rangeEnd newer logEnd) (answer b.epoch).endOffset := by
  have hrev : c.entries.reverse = newer.reverse ++ b :: older.reverse := by simp [h]
  have hpoint := @sharedPoint_append older.reverse newer.reverse b answer
    (fun a ha => hnewer a (mem_reverse.mp ha)) hb logEnd
  rw [← hrev, getLast?_reverse] at hpoint
  unfold divergencePoint
  split
  · next hnil =>
    rw [hnil] at h
    simp at h
  · rw [hpoint]
    rfl

theorem divergencePoint_of_none (h : ∀ b ∈ c.entries, (answer b.epoch).answeredEpoch ≠ b.epoch)
    (logEnd : Nat) :
    (c.divergencePoint logEnd answer).truncateTo =
      (c.entries.head?.map EpochEntry.startOffset).getD logEnd := by
  have hpoint := sharedPoint_of_none (fun b hb => h b (mem_reverse.mp hb)) logEnd
  unfold divergencePoint
  split
  · next hnil => rw [hnil]; rfl
  · next first rest hcons =>
    rw [hpoint, hcons]
    rfl

/-! ## The longest common front part -/

/-- At the newest epoch both caches hold, the record below the smaller of the two ends carries the
same stamp in both logs. Two logs in which an epoch begins at the same offset meet this. -/
def SameStampBelow (cf cl : EpochCache) (followerEnd leaderEnd : Nat) : Prop :=
  ∀ older b newer older' b' newer', cf.entries = older ++ b :: newer →
    cl.entries = older' ++ b' :: newer' → b.epoch = b'.epoch →
    (∀ x ∈ newer, ∀ y ∈ cl.entries, x.epoch ≠ y.epoch) →
    let stop := min (rangeEnd newer followerEnd) (rangeEnd newer' leaderEnd)
    stop = 0 ∨ cf.epochForOffset (stop - 1) = cl.epochForOffset (stop - 1)

section Logs

variable {cf cl : EpochCache} {follower leader : List Stamped}

section

variable (hf : cf.Describes follower)

include hf

/-- Common records end with the newest epoch both caches hold. -/
theorem commonFront_le (hl : cl.Describes leader)
    {older newer older' newer' : List EpochEntry} {b b' : EpochEntry}
    (hb : cf.entries = older ++ b :: newer) (hb' : cl.entries = older' ++ b' :: newer')
    (hsame : b.epoch = b'.epoch) (hnewest : ∀ x ∈ newer, ∀ y ∈ cl.entries, x.epoch ≠ y.epoch) :
    follower.commonFront leader ≤
      min (rangeEnd newer follower.length) (rangeEnd newer' leader.length) := by
  by_contra hlt
  obtain ⟨hlen, -, htake⟩ := le_commonFront_iff.mp (not_le.mp hlt)
  generalize hstop : min (rangeEnd newer follower.length) (rangeEnd newer' leader.length) = stop
    at hlen htake
  have hr : follower[stop]? = some follower[stop] := getElem?_eq_getElem hlen
  have hr' : leader[stop]? = some follower[stop] := by
    have hget := congrArg (·[stop]?) htake
    simpa [getElem?_take, hr] using hget.symm
  -- the first record past the smaller end would belong to a newer epoch both caches hold
  have hgt : b.epoch < follower[stop].epoch := by
    rcases le_total (rangeEnd newer follower.length) (rangeEnd newer' leader.length) with h | h
    · exact hf.epoch_lt hb hr (by omega)
    · rw [hsame]
      exact hl.epoch_lt hb' hr' (by omega)
  obtain ⟨x, hx, hxe⟩ := hf.held hr
  obtain ⟨y, hy, hye⟩ := hl.held hr'
  rw [hb] at hx
  rcases mem_append.mp hx with hx | hx
  · have := ((around hb).1 x hx).1
    omega
  · rcases mem_cons.mp hx with rfl | hx
    · omega
    · exact hnewest x hx y hy (hxe.trans hye.symm)

theorem commonFront_of_unshared (hl : cl.Describes leader)
    (h : ∀ x ∈ cf.entries, ∀ y ∈ cl.entries, x.epoch ≠ y.epoch) :
    follower.commonFront leader = 0 := by
  match follower, leader with
  | [], _ => rfl
  | _ :: _, [] => rfl
  | r :: follower, r' :: leader =>
    obtain ⟨x, hx, hxe⟩ := hf.held (o := 0) (r := r) rfl
    obtain ⟨y, hy, hye⟩ := hl.held (o := 0) (r := r') rfl
    have hne : r ≠ r' := by
      rintro rfl
      exact h x hx y hy (hxe.trans hye.symm)
    rw [commonFront, if_neg hne]

/-- A follower that shares no epoch with the leader truncates to where its log starts. -/
theorem divergencePoint_of_unshared (hl : cl.Describes leader)
    (h : ∀ x ∈ cf.entries, ∀ y ∈ cl.entries, x.epoch ≠ y.epoch) :
    (cf.divergencePoint follower.length
      fun e => cl.endOffsetForEpoch e leader.length).truncateTo = 0 := by
  rcases forall_or_exists_last (fun b : EpochEntry =>
    (cl.endOffsetForEpoch b.epoch leader.length).answeredEpoch = b.epoch) cf.entries with
    hnone | ⟨older, b, newer, hb, hans, hnewer⟩
  · rw [divergencePoint_of_none hnone]
    rcases hcf : cf.entries with _ | ⟨first, rest⟩
    · rw [hf.eq_nil hcf]
      rfl
    · -- the boundary of the record at offset 0 is the first one
      have hwithin := hf.within first (by simp [hcf])
      match follower with
      | [] => simpa using hwithin
      | r :: follower =>
        obtain ⟨older, b, newer, hb, -, hle, -⟩ := epochForOffset_eq_some (hf.stamped 0 r rfl)
        match older, hb with
        | [], hb =>
          rw [hcf] at hb
          cases hb
          simpa using hle
        | a :: older, hb => exact absurd ((around hb).1 a mem_cons_self).2 (by omega)
  · -- a leader that answers for an epoch it does not hold has an empty log
    rw [divergencePoint_of_answered hb hnewer hans]
    rcases held_of_answered hans with hnil | ⟨y, hy, hye⟩
    · simp [endOffsetForEpoch, hnil, hl.eq_nil hnil]
    · exact absurd hye.symm (h b (by simp [hb]) y hy)

/-- Two logs agree below an offset when the record below it carries the same stamp in both. -/
theorem take_eq_iff (hl : cl.Describes leader)
    (hmatch : LogMatching follower leader) {n : Nat} (hn : n ≤ follower.length)
    (hn' : n ≤ leader.length) : follower.take n = leader.take n ↔
      n = 0 ∨ cf.epochForOffset (n - 1) = cl.epochForOffset (n - 1) := by
  match n with
  | 0 => simp
  | o + 1 =>
    have hr : follower[o]? = some follower[o] := getElem?_eq_getElem hn
    have hr' : leader[o]? = some leader[o] := getElem?_eq_getElem hn'
    rw [Nat.add_sub_cancel, hf.stamped o _ hr, hl.stamped o _ hr']
    constructor
    · intro htake
      have hget := congrArg (·[o]?) htake
      have heq : follower[o] = leader[o] := by simpa [getElem?_take, hr, hr'] using hget
      exact .inr (by rw [heq])
    · rintro (h | h)
      · cases h
      · exact hmatch o _ _ hr hr' (Option.some.inj h)

/-- The walk finds the longest common front part exactly when the record below the smaller end of
the newest shared epoch carries the same stamp in both logs. -/
theorem divergencePoint_eq_iff (hl : cl.Describes leader) (hmatch : LogMatching follower leader) :
    (cf.divergencePoint follower.length fun e => cl.endOffsetForEpoch e leader.length).truncateTo =
        follower.commonFront leader ↔
      SameStampBelow cf cl follower.length leader.length := by
  have hshared {older newer older' newer' : List EpochEntry} {b b' : EpochEntry}
      (hb : cf.entries = older ++ b :: newer) (hb' : cl.entries = older' ++ b' :: newer')
      (hsame : b.epoch = b'.epoch) (hnewest : ∀ x ∈ newer, ∀ y ∈ cl.entries, x.epoch ≠ y.epoch) :
      (cf.divergencePoint follower.length
        fun e => cl.endOffsetForEpoch e leader.length).truncateTo =
        min (rangeEnd newer follower.length) (rangeEnd newer' leader.length) := by
    have hends := endOffsetForEpoch_of_mem hb' leader.length
    rw [← hsame] at hends
    rw [divergencePoint_of_answered hb (fun a ha hans => ?_) (by rw [hends]), hends]
    rcases held_of_answered hans with hnil | ⟨y, hy, hye⟩
    · rw [hnil] at hb'
      simp at hb'
    · exact hnewest a ha y hy hye.symm
  constructor
  · intro heq older b newer older' b' newer' hb hb' hsame hnewest
    rw [hshared hb hb' hsame hnewest] at heq
    obtain ⟨hn, hn', htake⟩ := le_commonFront_iff.mp heq.le
    exact (take_eq_iff hf hl hmatch hn hn').mp htake
  · intro hbelow
    rcases forall_or_exists_last (fun b : EpochEntry => ∃ y ∈ cl.entries, b.epoch = y.epoch)
      cf.entries with hnone | ⟨older, b, newer, hb, ⟨b', hmem, hsame⟩, hnewest⟩
    · -- without a common epoch there is no common record
      have hunshared : ∀ x ∈ cf.entries, ∀ y ∈ cl.entries, x.epoch ≠ y.epoch :=
        fun x hx y hy hxy => hnone x hx ⟨y, hy, hxy⟩
      rw [divergencePoint_of_unshared hf hl hunshared, commonFront_of_unshared hf hl hunshared]
    · obtain ⟨older', newer', hb'⟩ := append_of_mem hmem
      have hnewest' : ∀ x ∈ newer, ∀ y ∈ cl.entries, x.epoch ≠ y.epoch :=
        fun x hx y hy hxy => hnewest x hx ⟨y, hy, hxy⟩
      rw [hshared hb hb' hsame hnewest']
      refine le_antisymm ?_ (commonFront_le hf hl hb hb' hsame hnewest')
      have hend := hf.rangeEnd_le_length hb
      have hend' := hl.rangeEnd_le_length hb'
      have hn := (min_le_left _ (rangeEnd newer' leader.length)).trans hend
      have hn' := (min_le_right (rangeEnd newer follower.length) _).trans hend'
      exact le_commonFront_iff.mpr ⟨hn, hn', (take_eq_iff hf hl hmatch hn hn').mpr
        (hbelow older b newer older' b' newer' hb hb' hsame hnewest')⟩

end

end Logs

/-! ## Taking up a higher epoch -/

theorem lt_of_currentEpoch_lt (h : c.currentEpoch < epoch) :
    ∀ b ∈ c.entries, b.epoch < epoch := by
  intro b hb
  obtain ⟨older, newer, hentries⟩ := append_of_mem hb
  rcases hnewer : newer.getLast? with _ | last
  · obtain rfl := getLast?_eq_none_iff.mp hnewer
    simpa [currentEpoch, hentries] using h
  · have hlast : c.entries.getLast? = some last := by
      rw [hentries, getLast?_append, getLast?_cons, hnewer]
      rfl
    have hle := ((around hentries).2 last (mem_of_getLast? hnewer)).1
    simp only [currentEpoch, hlast, Option.map_some, Option.getD_some] at h
    exact hle.trans h

/-- A higher epoch is refused only where the newest boundary lies. -/
theorem assign_isOk_iff {startOffset : Nat} (h : ∀ b ∈ c.entries, b.epoch < epoch) :
    (c.assign epoch startOffset).isOk = true ↔
      ∀ last, c.entries.getLast? = some last → last.startOffset < startOffset := by
  unfold assign
  split
  · next hnone =>
    rw [hnone]
    exact ⟨nofun, fun _ => rfl⟩
  · next last hlast =>
    have hlt := h last (mem_of_getLast? hlast)
    rw [dif_neg (Nat.not_lt_of_lt hlt), dif_neg (Nat.ne_of_gt hlt)]
    by_cases hstart : startOffset ≤ last.startOffset
    · rw [dif_pos hstart]
      exact ⟨nofun, fun h => absurd (h last hlast) (not_lt_of_ge hstart)⟩
    · rw [dif_neg hstart]
      refine ⟨fun _ l hl => ?_, fun _ => rfl⟩
      cases hlast.symm.trans hl
      exact not_le.mp hstart

end EpochCache

namespace EpochAwareFollower

variable {f : EpochAwareFollower} {cl : EpochCache} {follower leader : List Stamped}

/-- What a reconciliation leaves: the log up to the clamped point, and a cache without the
boundaries from there on if records were dropped. -/
theorem reconcileWithLeader_eq (hlog : f.follower.log.records = follower.map Stamped.frame)
    (committedHw : Nat) (answer : Nat → LeaderEpochEndOffset) :
    let stop := max (f.epochs.divergencePoint follower.length answer).truncateTo committedHw
    ∃ out f', f.reconcileWithLeader committedHw answer = .ok (out, f')
      ∧ out.divergencePoint.truncateTo = stop
      ∧ f'.follower.log.records = (follower.take stop).map Stamped.frame
      ∧ f'.follower.nextFetchOffset = min stop follower.length
      ∧ f'.epochs.entries = if stop < follower.length then (f.epochs.truncateTo stop).entries
        else f.epochs.entries := by
  have hend : f.follower.log.nextOffset = follower.length := by
    rw [ReplicaLog.nextOffset, hlog, length_map]
  intro stop
  unfold reconcileWithLeader
  simp only [hend, DivergencePoint.needsTruncation]
  by_cases hlt : stop < follower.length
  · have hgt : ¬ follower.length < stop := Nat.not_lt_of_lt hlt
    have hneeds : ¬ (!decide (follower.length > stop)) = true := by simpa using hlt
    rw [if_neg hneeds, ReplicaLog.truncateTo, hend, if_neg hgt, if_neg hlt.ne]
    refine ⟨_, _, rfl, rfl, ?_, ?_, (if_pos hlt).symm⟩
    · show f.follower.log.records.take stop = _
      rw [hlog, map_take]
    · show (f.follower.log.records.take stop).length = _
      rw [hlog, length_take, length_map]
  · have hneeds : (!decide (follower.length > stop)) = true := by simpa using hlt
    rw [if_pos hneeds]
    refine ⟨_, f, rfl, rfl, ?_, ?_, (if_neg hlt).symm⟩
    · rw [hlog, take_of_length_le (not_lt.mp hlt)]
    · exact hend.trans (min_eq_right (not_lt.mp hlt)).symm

/-- A reconciliation finds the longest common front part, truncates to the larger of it and the
committed high-watermark and lets the follower take up every higher epoch at its next offset,
exactly when the record below the smaller end of the newest shared epoch carries the same stamp in
both logs, and the newest epoch of a follower that drops nothing has records. -/
theorem reconcile_iff (hlog : f.follower.log.records = follower.map Stamped.frame)
    (hf : f.epochs.Describes follower) (hl : cl.Describes leader)
    (hmatch : LogMatching follower leader) (committedHw : Nat) :
    let answer := fun e => cl.endOffsetForEpoch e leader.length
    let stop := max (follower.commonFront leader) committedHw
    ((f.epochs.divergencePoint follower.length answer).truncateTo = follower.commonFront leader
      ∧ ∃ out f', f.reconcileWithLeader committedHw answer = .ok (out, f')
        ∧ out.divergencePoint.truncateTo = stop
        ∧ f'.follower.log.records = (follower.take stop).map Stamped.frame
        ∧ ∀ epoch, f.epochs.currentEpoch < epoch →
          (f'.assignEpoch epoch f'.follower.nextFetchOffset).isOk = true)
    ↔ f.epochs.SameStampBelow cl follower.length leader.length
      ∧ ∀ last, f.epochs.entries.getLast? = some last →
        last.startOffset < follower.length ∨ stop < follower.length := by
  intro answer stop
  rw [EpochCache.divergencePoint_eq_iff hf hl hmatch]
  refine and_congr_right fun hbelow => ?_
  obtain ⟨out, f', hok, hout, hrecords, hnext, hentries⟩ :=
    reconcileWithLeader_eq hlog committedHw answer
  rw [(EpochCache.divergencePoint_eq_iff hf hl hmatch).mpr hbelow] at hout hrecords hnext hentries
  -- a new epoch must start behind the last boundary that is left
  have hassign {epoch : Nat} (hepoch : f.epochs.currentEpoch < epoch) :
      (f'.assignEpoch epoch f'.follower.nextFetchOffset).isOk = true ↔
        ∀ last, f'.epochs.entries.getLast? = some last →
          last.startOffset < min stop follower.length := by
    have hhigher : ∀ b ∈ f'.epochs.entries, b.epoch < epoch := by
      intro b hb
      refine EpochCache.lt_of_currentEpoch_lt hepoch b ?_
      rw [hentries] at hb
      split at hb
      · exact List.mem_of_mem_filter hb
      · exact hb
    rw [← hnext, ← EpochCache.assign_isOk_iff hhigher, assignEpoch]
    cases f'.epochs.assign epoch f'.follower.nextFetchOffset <;> rfl
  constructor
  · rintro ⟨out', f'', hok', -, -, hall⟩ last hlast
    rw [hok] at hok'
    cases hok'
    by_cases hlt : stop < follower.length
    · exact .inr hlt
    · have hboundary := (hassign (Nat.lt_succ_self _)).mp (hall _ (Nat.lt_succ_self _)) last
      rw [hentries, if_neg hlt] at hboundary
      exact .inl ((hboundary hlast).trans_le (min_le_right _ _))
  · intro hnewest
    refine ⟨out, f', hok, hout, hrecords, fun epoch hepoch => (hassign hepoch).mpr ?_⟩
    intro last hlast
    rw [hentries] at hlast
    by_cases hlt : stop < follower.length
    · rw [if_pos hlt] at hlast
      have hkept := (List.mem_filter.mp (List.mem_of_getLast? hlast)).2
      exact lt_min (of_decide_eq_true hkept) ((of_decide_eq_true hkept).trans hlt)
    · rw [if_neg hlt] at hlast
      rw [min_eq_right (not_lt.mp hlt)]
      exact (hnewest last hlast).resolve_right hlt

/-! ## Small histories -/

/-- A follower with the given records and boundaries, all of it synced. -/
def holding (log : List Stamped) (epochs : EpochCache) : EpochAwareFollower :=
  ⟨.new (.settled (log.map Stamped.frame)), epochs⟩

/-- The boundaries of a history, given as pairs of an epoch and its start. -/
def history (starts : List (Nat × Nat)) : EpochCache :=
  (starts.foldlM (fun (c : EpochCache) b => c.assign b.1 b.2) EpochCache.new).toOption.getD .new

/-- Two records under epoch 1; the leader has the first and then opened epoch 2. -/
theorem reconcile_iff_two_epochs :
    let follower := [⟨1, [0]⟩, ⟨1, [1]⟩]
    let leader := [⟨1, [0]⟩, ⟨2, [2]⟩]
    let answer := fun e => (history [(1, 0), (2, 1)]).endOffsetForEpoch e leader.length
    let f := holding follower (history [(1, 0)])
    (f.epochs.divergencePoint follower.length answer).truncateTo = follower.commonFront leader
      ∧ ∃ out f', f.reconcileWithLeader 1 answer = .ok (out, f')
        ∧ out.divergencePoint.truncateTo = 1
        ∧ f'.follower.log.records = [[0]]
        ∧ ∀ epoch, f.epochs.currentEpoch < epoch →
          (f'.assignEpoch epoch f'.follower.nextFetchOffset).isOk = true := by
  intro follower leader answer f
  refine (@reconcile_iff f (history [(1, 0), (2, 1)]) follower leader rfl (by decide) (by decide)
    (by decide) 1).mpr ⟨?_, fun last hlast => .inr (by decide)⟩
  rw [← EpochCache.divergencePoint_eq_iff (by decide) (by decide) (by decide)]
  decide

/-- An epoch that was learned before anything was appended under it stays in the cache of a follower
that drops nothing, and the next epoch is refused at the same offset. And an epoch that begins at
different offsets in the two logs is taken for a shared history. -/
theorem reconcile_refuses_next_epoch :
    let log : List Stamped := [⟨1, [0]⟩]
    let f := holding log (history [(1, 0), (2, 1)])
    let cl := history [(1, 0), (3, 1)]
    let answer := fun e => cl.endOffsetForEpoch e 1
    let follower' : List Stamped := [⟨2, [0]⟩]
    let leader' : List Stamped := [⟨1, [1]⟩, ⟨2, [2]⟩]
    let cf' := history [(2, 0)]
    let cl' := history [(1, 0), (2, 1)]
    f.epochs.Describes log ∧ cl.Describes log ∧ LogMatching log log
      ∧ log.commonFront log = 1
      ∧ (f.reconcileWithLeader 0 answer).toOption.map (fun r =>
        (r.2.follower.nextFetchOffset, match r.2.assignEpoch 3 1 with
          | .ok _ => none
          | .error e => some e)) = some (1, some (.offsetWentBackward 1 1))
      ∧ cf'.Describes follower' ∧ cl'.Describes leader' ∧ LogMatching follower' leader'
      ∧ follower'.commonFront leader' = 0
      ∧ (cf'.divergencePoint 1 fun e => cl'.endOffsetForEpoch e 2).truncateTo = 1 := by
  decide +kernel

end EpochAwareFollower

end IronBus
