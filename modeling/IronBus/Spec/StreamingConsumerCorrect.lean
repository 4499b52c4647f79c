import IronBus.Native.StreamingConsumer
import IronBus.Spec.DeliverFramesCorrect

/-!
# What a streaming consumer commits

A streaming consumer moves its cursor by the number of records a window holds, and the window is a
front of the visible records, so every record below the cursor has been read. The cursor is
committed inside `nextBatch`, before the window it covers is returned: a consumer that stops, or
whose connection fails, between that commit and the return leaves records committed that its caller
never got. A stop before the commit goes out, a stop of a call that has no commit to make, and a
stop of a call whose window is empty leave nothing behind.

## Key results

- `wp_takeWindow`: the window of a call goes on from the cursor
- `wp_commitNow`, `wp_nextBatch`: what the calls commit, and where they may stop
- `wp_rest`: which stops behind the window leave nothing committed that was not returned
- `committed_received`: everything below the committed offset was returned, in every run
-/

namespace IronBus

open Prog List

variable [Checksums]

/-! ## What lies below an offset -/

/-- A later state of a log: records are added behind the visible end only, and any may go. -/
structure RangeLog.Follows (a b : RangeLog) : Prop where
  wf : b.Wf
  flushed : a.flushedOffset ≤ b.flushedOffset
  kept : ∀ r ∈ b.records, r.offset < a.flushedOffset → ∃ r' ∈ a.records, r'.offset = r.offset

namespace RangeLog

theorem Wf.follows_refl {log : RangeLog} (h : log.Wf) : log.Follows log :=
  ⟨h, le_rfl, fun r hr _ => ⟨r, hr, rfl⟩⟩

theorem Follows.trans {a b c : RangeLog} (h : a.Follows b) (h' : b.Follows c) : a.Follows c where
  wf := h'.wf
  flushed := h.flushed.trans h'.flushed
  kept r hr hlt := by
    obtain ⟨r', hr', heq⟩ := h'.kept r hr (hlt.trans_le h.flushed)
    obtain ⟨r'', hr'', heq'⟩ := h.kept r' hr' (heq ▸ hlt)
    exact ⟨r'', hr'', heq'.trans heq⟩

/-- Every record below `upTo` lies below the floor or was got. -/
structure Covers (log : RangeLog) (floor : Nat) (got : Nat → Prop) (upTo : Nat) : Prop where
  below : ∀ r ∈ log.records, r.offset < upTo → r.offset < floor ∨ got r.offset
  bound : upTo ≤ max floor log.flushedOffset

namespace Covers

variable {log : RangeLog} {floor upTo : Nat} {got : Nat → Prop}

theorem of_le_floor (h : upTo ≤ floor) : log.Covers floor got upTo :=
  ⟨fun _ _ hlt => .inl (hlt.trans_le h), h.trans (le_max_left ..)⟩

theorem mono {upTo' floor' : Nat} {got' : Nat → Prop} (h : log.Covers floor got upTo)
    (hle : upTo' ≤ upTo) (hfloor : floor ≤ floor') (hgot : ∀ o, got o → got' o) :
    log.Covers floor' got' upTo' where
  below r hr hlt := (h.below r hr (hlt.trans_le hle)).imp (·.trans_le hfloor) (hgot _)
  bound := by
    have := h.bound
    omega

theorem max {upTo' : Nat} (h : log.Covers floor got upTo) (h' : log.Covers floor got upTo') :
    log.Covers floor got (Max.max upTo upTo') where
  below r hr hlt := by
    rcases lt_max_iff.mp hlt with hlt | hlt
    · exact h.below r hr hlt
    · exact h'.below r hr hlt
  bound := Nat.max_le.mpr ⟨h.bound, h'.bound⟩

/-- A later log covers what an earlier one did: nothing is added below its visible end. -/
theorem follows {log' : RangeLog} (h : log.Covers floor got upTo) (hf : log.Follows log') :
    log'.Covers floor got upTo where
  below r hr hlt := by
    by_cases hfloor : r.offset < floor
    · exact .inl hfloor
    · have hbound := h.bound
      obtain ⟨r', hr', heq⟩ := hf.kept r hr (by omega)
      rw [← heq] at hlt ⊢
      exact h.below r' hr' hlt
  bound := by
    have := h.bound
    have := hf.flushed
    omega

/-- A window read from `upTo` covers as many more offsets as it has records. -/
theorem window (h : log.Covers floor got upTo) (hwf : log.Wf) {offsets : List Nat}
    (hfront : offsets <+: (log.visible upTo).map SlotRecord.offset) :
    log.Covers floor (fun o => got o ∨ o ∈ offsets) (upTo + offsets.length) := by
  have hsorted : ((log.visible upTo).map SlotRecord.offset).Pairwise (· < ·) := by
    rw [pairwise_map]
    exact hwf.pairwise_records.filter _
  have hrange : ∀ o ∈ (log.visible upTo).map SlotRecord.offset,
      upTo ≤ o ∧ o < log.flushedOffset := by
    intro o ho
    obtain ⟨r, hr, rfl⟩ := mem_map.mp ho
    simpa using (mem_filter.mp hr).2
  generalize hall : (log.visible upTo).map SlotRecord.offset = all at hfront hsorted hrange
  have hindex := add_le_getElem hsorted fun o ho => (hrange o ho).1
  constructor
  · intro r hr hlt
    by_cases hold : r.offset < upTo
    · exact (h.below r hr hold).imp_right .inl
    -- the window's last record shows that `r` is visible
    have hbound : upTo + offsets.length ≤ log.flushedOffset := by
      have hpos : 0 < offsets.length := by omega
      have hlast : offsets.length - 1 < all.length := by
        have := hfront.length_le
        omega
      have := hindex _ hlast
      have := (hrange _ (getElem_mem hlast)).2
      omega
    have hmem : r.offset ∈ all := by
      rw [← hall]
      refine mem_map_of_mem (mem_filter.mpr ⟨hr, ?_⟩)
      simp only [decide_eq_true_eq]
      omega
    obtain ⟨j, hj, heq⟩ := getElem_of_mem hmem
    have hle := hindex j hj
    obtain ⟨rest, rfl⟩ := hfront
    refine .inr (.inr ?_)
    rw [← heq, getElem_append_left (by omega)]
    exact getElem_mem _
  · cases hlen : offsets.length with
    | zero => exact h.bound
    | succ n =>
      have hlast : n < all.length := by
        have := hfront.length_le
        omega
      have := hindex _ hlast
      have := (hrange _ (getElem_mem hlast)).2
      omega

end Covers

end RangeLog

variable [Compression]

/-! ## One exchange -/

/-- The logs of a schedule follow each other, and every reply is whole. -/
def Scheduled (maxBytes : Nat) : RangeLog → List Exchange → Prop
  | _, [] => True
  | log, x :: rest =>
    log.Follows x.log ∧ x.session.Whole x.log maxBytes ∧ Scheduled maxBytes x.log rest

/-- The offsets of a window. -/
def Fetch.offsets (f : Fetch) : List Nat := f.messages.map Message.offset

namespace Link

def log (l : Link) : RangeLog := l.server.log

/-- What holds of a link while no window is in hand: everything below the cursor and the committed
offset was got, and the window ahead begins at the cursor. -/
structure Inv (base : RangeLog) (floor : Nat) (got : Nat → Prop) (l : Link) : Prop where
  later : base.Follows l.log
  cursor : l.log.Covers floor got l.consumer.nextOffset
  served : l.log.Covers floor got l.server.committed
  stash : ∀ f, l.consumer.stashed = some f → l.consumer.prefetch = none ∧
    l.log.Covers floor (fun o => got o ∨ o ∈ f.offsets)
      (l.consumer.nextOffset + f.messages.length)
  ahead : ∀ limit, l.consumer.prefetch = some limit → ∃ req, l.request = some req
    ∧ req.startOffset = l.consumer.nextOffset ∧ req.maxBytes = l.consumer.config.maxBytes
  schedule : Scheduled l.consumer.config.maxBytes l.log l.schedule

/-- What a stop leaves behind. -/
structure Stopped (base : RangeLog) (floor : Nat) (got : Nat → Prop) (l : Link) : Prop where
  later : base.Follows l.log
  served : l.log.Covers floor got l.server.committed

/-- A window is in hand: it goes on from the cursor of `l'`, and no other is ahead. -/
structure InHand (base : RangeLog) (floor : Nat) (got : Nat → Prop) (batches : Nat)
    (config : StreamConsumerConfig) (f : Fetch) (l' : Link) : Prop where
  inv : Inv base floor got l'
  prefetch : l'.consumer.prefetch = none
  stashed : l'.consumer.stashed = none
  batches_eq : l'.consumer.batchesSinceCommit = batches
  config_eq : l'.consumer.config = config
  window : l'.log.Covers floor (fun o => got o ∨ o ∈ f.offsets)
    (l'.consumer.nextOffset + f.messages.length)

variable {base : RangeLog} {floor : Nat} {got : Nat → Prop} {l : Link}

theorem Inv.stopped (h : Inv base floor got l) : Stopped base floor got l := ⟨h.later, h.served⟩

/-- The next exchange moves the log, not what is committed. -/
theorem Stopped.next {maxBytes : Nat} (h : Stopped base floor got l)
    (hsched : Scheduled maxBytes l.log l.schedule) {x : Exchange} {l' : Link}
    (hnext : l.next = some (x, l')) :
    Stopped base floor got l' ∧ Scheduled maxBytes l'.log l'.schedule
      ∧ l.schedule.head? = some x := by
  rw [Link.next] at hnext
  cases hs : l.schedule with
  | nil => simp [hs] at hnext
  | cons y rest =>
    rw [hs] at hnext hsched
    obtain ⟨rfl, rfl⟩ := Prod.mk.inj (Option.some.inj hnext)
    obtain ⟨hf, -, hrest⟩ := hsched
    exact ⟨⟨h.later.trans hf, h.served.follows hf⟩, hrest, rfl⟩

/-- The next exchange keeps the invariant, and its reply is whole. -/
theorem Inv.next (h : Inv base floor got l) {x : Exchange} {l' : Link}
    (hnext : l.next = some (x, l')) :
    Inv base floor got l' ∧ x.session.Whole l'.log l'.consumer.config.maxBytes
      ∧ l'.consumer = l.consumer ∧ l'.request = l.request := by
  rw [Link.next] at hnext
  cases hs : l.schedule with
  | nil => simp [hs] at hnext
  | cons y rest =>
    rw [hs] at hnext
    obtain ⟨rfl, rfl⟩ := Prod.mk.inj (Option.some.inj hnext)
    have hsched := h.schedule
    rw [hs] at hsched
    obtain ⟨hf, hwhole, hrest⟩ := hsched
    refine ⟨⟨h.later.trans hf, h.cursor.follows hf, h.served.follows hf, ?_, h.ahead, hrest⟩,
      hwhole, rfl, rfl⟩
    intro f hfetch
    obtain ⟨hp, hcov⟩ := h.stash f hfetch
    exact ⟨hp, hcov.follows hf⟩

end Link

section Calls

variable {base : RangeLog} {floor : Nat} {got : Nat → Prop} {l : Link}

variable (h : Link.Inv base floor got l)

include h

theorem wp_sendStreamFetch (start maxRecords maxBytes : Nat) :
    Yields (sendStreamFetch start maxRecords maxBytes) l
      (fun limit l' => ∃ l₁ : Link, Link.Inv base floor got l₁ ∧ l₁.consumer = l.consumer
        ∧ l' = { l₁ with request := some ⟨start, limit, maxBytes⟩ })
      (Link.Stopped base floor got) := by
  rw [Yields, sendStreamFetch, wp_effect]
  rcases hn : l.next with _ | ⟨x, l₁⟩
  · exact ⟨h.stopped, h.stopped⟩
  obtain ⟨h₁, -, hc, -⟩ := h.next hn
  dsimp only
  split_ifs
  · exact ⟨h₁.stopped, h₁.stopped⟩
  · exact ⟨⟨l₁, h₁, hc, rfl⟩, ⟨h₁.later, h₁.served⟩⟩

/-- Reading the reply of a request that begins at the cursor gives a window that goes on from
there. -/
theorem wp_readStreamFetchResponse {req : StreamFetchBody}
    (hreq : l.request = some req) (hstart : req.startOffset = l.consumer.nextOffset)
    (hbytes : req.maxBytes = l.consumer.config.maxBytes) (limit : Nat) :
    Yields (readStreamFetchResponse limit) l
      (fun f l' => ∃ l₁ : Link, Link.Inv base floor got l₁ ∧ l₁.consumer = l.consumer
        ∧ l' = { l₁ with request := none }
        ∧ l₁.log.Covers floor (fun o => got o ∨ o ∈ f.offsets)
          (l.consumer.nextOffset + f.messages.length))
      (Link.Stopped base floor got) := by
  rw [Yields, readStreamFetchResponse, wp_effect]
  rcases hn : l.next with _ | ⟨x, l₁⟩
  · exact ⟨h.stopped, h.stopped⟩
  obtain ⟨h₁, hwhole, hc, hr⟩ := h.next hn
  rw [hreq] at hr
  dsimp only
  rw [hr]
  have hstop : Link.Stopped base floor got { l₁ with request := none } := ⟨h₁.later, h₁.served⟩
  dsimp only
  split_ifs
  · exact ⟨hstop, hstop⟩
  refine ⟨?_, hstop⟩
  cases hread : readFetchResponse limit l₁.maxAggregate
    (l₁.server.handleStreamFetch x.session req) with
  | error e => exact hstop
  | ok f =>
    rw [hc, ← hbytes] at hwhole
    have hfront := StreamServer.fetch_front h₁.later.wf hwhole hread
    rw [StreamServer.visibleOffsets, hstart] at hfront
    have hcov := (hc ▸ h₁.cursor).window h₁.later.wf hfront
    rw [length_map] at hcov
    exact ⟨l₁, h₁, hc, rfl, hcov⟩

theorem wp_streamCommit :
    Yields (streamCommit l.consumer.nextOffset) l
      (fun _ l' => Link.Inv base floor got l' ∧ l'.consumer = l.consumer)
      (Link.Stopped base floor got) := by
  rw [Yields, streamCommit, wp_effect]
  rcases hn : l.next with _ | ⟨x, l₁⟩
  · exact ⟨h.stopped, h.stopped⟩
  obtain ⟨h₁, -, hc, -⟩ := h.next hn
  dsimp only
  by_cases hsend : x.sendFails
  · rw [if_pos hsend]
    exact ⟨h₁.stopped, h₁.stopped⟩
  · rw [if_neg hsend]
    -- the commit moves the cursor of the broker up to the consumer's
    have hcommit (server : StreamServer)
        (hs : l₁.server.streamCommitIn l.consumer.nextOffset = .ok server) :
        Link.Inv base floor got { l₁ with server := server } := by
      unfold StreamServer.streamCommitIn at hs
      split_ifs at hs
      cases hs
      exact ⟨h₁.later, h₁.cursor, h₁.served.max (hc ▸ h₁.cursor), h₁.stash, h₁.ahead,
        h₁.schedule⟩
    cases hs : l₁.server.streamCommitIn l.consumer.nextOffset with
    | error e =>
      dsimp only
      split_ifs <;> exact ⟨h₁.stopped, h₁.stopped⟩
    | ok server =>
      have h₂ := hcommit server hs
      dsimp only
      split_ifs
      · exact ⟨h₂.stopped, h₂.stopped⟩
      · exact ⟨h₂.stopped, h₂.stopped⟩
      · exact ⟨⟨h₂, hc⟩, h₂.stopped⟩

namespace StreamingConsumer

/-- Changing the consumer without moving its cursor keeps what was got. -/
theorem inv_mapConsumer {c : StreamingConsumer}
    (hnext : c.nextOffset = l.consumer.nextOffset) (hconfig : c.config = l.consumer.config)
    (hstash : ∀ f, c.stashed = some f → c.prefetch = none ∧
      l.log.Covers floor (fun o => got o ∨ o ∈ f.offsets) (c.nextOffset + f.messages.length))
    (hahead : ∀ limit, c.prefetch = some limit → ∃ req, l.request = some req
      ∧ req.startOffset = c.nextOffset ∧ req.maxBytes = c.config.maxBytes) :
    Link.Inv base floor got { l with consumer := c } :=
  ⟨h.later, hnext ▸ h.cursor, h.served, hstash, hahead, hconfig ▸ h.schedule⟩

/-- A window ahead is read into the stash. -/
theorem wp_drainPrefetch :
    Yields drainPrefetch l
      (fun _ l' => Link.Inv base floor got l' ∧ l'.consumer.prefetch = none
        ∧ (l.consumer.prefetch = none → l'.consumer.stashed = l.consumer.stashed))
      (Link.Stopped base floor got) := by
  rw [Yields, drainPrefetch, wp_bind, wp_gets]
  cases hp : l.consumer.prefetch with
  | none =>
    rw [wp_pure]
    exact ⟨h, hp, fun _ => rfl⟩
  | some limit =>
    obtain ⟨req, hreq, hstart, hbytes⟩ := h.ahead limit hp
    have hnone : l.consumer.stashed = none := by
      cases hs : l.consumer.stashed with
      | none => rfl
      | some f => cases hp.symm.trans (h.stash f hs).1
    dsimp only
    rw [wp_bind, wp_modify, wp_bind]
    have h₁ : Link.Inv base floor got (l.mapConsumer fun c => { c with prefetch := none }) :=
      inv_mapConsumer h rfl rfl (fun f hf => by cases hnone.symm.trans hf) nofun
    refine (wp_readStreamFetchResponse h₁ hreq hstart hbytes limit).imp ?_
    rintro f _ ⟨l₂, h₂, hc, rfl, hcov⟩
    rw [wp_modify]
    have h₂' : Link.Inv base floor got { l₂ with request := none } := by
      refine ⟨h₂.later, h₂.cursor, h₂.served, h₂.stash, ?_, h₂.schedule⟩
      intro limit hl
      rw [show l₂.consumer.prefetch = none by rw [hc]; rfl] at hl
      cases hl
    have hnext : l₂.consumer.nextOffset = l.consumer.nextOffset := by rw [hc]; rfl
    refine ⟨inv_mapConsumer h₂' rfl rfl ?_ h₂'.ahead, ?_, nofun⟩
    · rintro _ ⟨⟩
      refine ⟨by rw [hc]; rfl, ?_⟩
      show l₂.log.Covers _ _ (l₂.consumer.nextOffset + _)
      rw [hnext]
      exact hcov
    · show l₂.consumer.prefetch = none
      rw [hc]
      rfl

/-- `commitNow` commits what was got, and reads the window ahead without losing it. -/
theorem wp_commitNow :
    Yields commitNow l
      (fun _ l' => Link.Inv base floor got l' ∧ l'.consumer.prefetch = none
        ∧ (l.consumer.prefetch = none → l'.consumer.stashed = l.consumer.stashed))
      (Link.Stopped base floor got) := by
  rw [Yields, commitNow, wp_bind]
  refine (wp_drainPrefetch h).imp ?_
  rintro _ l₁ ⟨h₁, hquiet, hstash⟩
  rw [wp_bind, wp_gets, wp_ite]
  refine ⟨fun _ => ?_, fun _ => ?_⟩
  · rw [wp_pure]
    exact ⟨h₁, hquiet, hstash⟩
  · rw [wp_bind]
    refine (wp_streamCommit h₁).imp ?_
    rintro _ l₂ ⟨h₂, hc⟩
    rw [wp_modify]
    rw [← hc] at hquiet hstash
    exact ⟨inv_mapConsumer h₂ rfl rfl h₂.stash h₂.ahead, hquiet, hstash⟩

/-- A reply that is read now, to a request that begins at the cursor, is the window in hand. -/
theorem wp_readWindow (hp : l.consumer.prefetch = none) (hs : l.consumer.stashed = none)
    {req : StreamFetchBody} (hreq : l.request = some req)
    (hstart : req.startOffset = l.consumer.nextOffset)
    (hbytes : req.maxBytes = l.consumer.config.maxBytes) (limit : Nat) :
    Yields (readStreamFetchResponse limit) l
      (Link.InHand base floor got l.consumer.batchesSinceCommit l.consumer.config)
      (Link.Stopped base floor got) := by
  refine (wp_readStreamFetchResponse h hreq hstart hbytes limit).imp ?_
  rintro f _ ⟨l₁, h₁, hc, rfl, hcov⟩
  rw [← hc] at hp hs hcov
  refine ⟨⟨h₁.later, h₁.cursor, h₁.served, h₁.stash, ?_, h₁.schedule⟩, hp, hs, by rw [← hc],
    by rw [← hc], hcov⟩
  intro limit hl
  cases hp.symm.trans hl

/-- The window of a call goes on from the cursor, whichever way it comes. -/
theorem wp_takeWindow :
    Yields takeWindow l
      (Link.InHand base floor got l.consumer.batchesSinceCommit l.consumer.config)
      (Link.Stopped base floor got) := by
  rw [Yields, takeWindow, wp_bind, wp_gets]
  cases hs : l.consumer.stashed with
  | some f =>
    -- a commit drained it: nothing is in flight
    obtain ⟨hp, hcov⟩ := h.stash f hs
    dsimp only
    rw [wp_bind, wp_modify, wp_pure]
    refine ⟨inv_mapConsumer h rfl rfl nofun ?_, hp, rfl, rfl, rfl, hcov⟩
    intro limit hl
    cases hp.symm.trans hl
  | none =>
    dsimp only
    cases hp : l.consumer.prefetch with
    | some limit =>
      -- it was asked for by the call before
      obtain ⟨req, hreq, hstart, hbytes⟩ := h.ahead limit hp
      dsimp only
      rw [wp_bind, wp_modify]
      refine wp_readWindow (l := l.mapConsumer fun c => { c with prefetch := none })
        (inv_mapConsumer h rfl rfl ?_ nofun) rfl hs hreq hstart hbytes limit
      intro f hf
      cases hs.symm.trans hf
    | none =>
      -- it is asked for now
      dsimp only
      rw [streamFetch, wp_bind]
      refine (wp_sendStreamFetch h _ _ _).imp ?_
      rintro limit _ ⟨l₁, h₁, hc, rfl⟩
      rw [← hc] at hp hs
      rw [← hc]
      refine wp_readWindow (l := { l₁ with request := some _ })
        ⟨h₁.later, h₁.cursor, h₁.served, h₁.stash, ?_, h₁.schedule⟩ hp hs rfl ?_ ?_ limit
      · intro limit hl
        cases hp.symm.trans hl
      · rfl
      · rfl

/-- The commit of a cadence commits what was got. -/
theorem wp_commitIfDue (hp : l.consumer.prefetch = none)
    (hs : l.consumer.stashed = none) (delivered : Nat) :
    Yields (commitIfDue delivered) l
      (fun _ l' => Link.Inv base floor got l' ∧ l'.consumer.stashed = none)
      (Link.Stopped base floor got) := by
  rw [Yields, commitIfDue, wp_ite]
  refine ⟨fun _ => ?_, fun _ => ?_⟩
  · rw [wp_bind, wp_modify, wp_bind, wp_gets, wp_ite]
    have h₁ : Link.Inv base floor got
        (l.mapConsumer fun c => { c with batchesSinceCommit := c.batchesSinceCommit + 1 }) :=
      inv_mapConsumer h rfl rfl h.stash h.ahead
    refine ⟨fun _ => ?_, fun _ => ?_⟩
    · refine (wp_commitNow h₁).imp ?_
      rintro _ l₂ ⟨h₂, -, hstash⟩
      exact ⟨h₂, (hstash hp).trans hs⟩
    · rw [wp_pure]
      exact ⟨h₁, hs⟩
  · refine (wp_commitNow h).imp ?_
    rintro _ l₂ ⟨h₂, -, hstash⟩
    exact ⟨h₂, (hstash hp).trans hs⟩

/-- The window asked for ahead begins at the cursor. -/
theorem wp_readAhead (hs : l.consumer.stashed = none) (delivered : Nat) :
    Yields (readAhead delivered) l (fun _ => Link.Inv base floor got)
      (Link.Stopped base floor got) := by
  rw [Yields, readAhead, wp_bind, wp_gets, wp_ite]
  refine ⟨fun _ => ?_, fun _ => ?_⟩
  · rw [wp_bind]
    refine (wp_sendStreamFetch h _ _ _).imp ?_
    rintro limit _ ⟨l₁, h₁, hc, rfl⟩
    rw [wp_modify]
    rw [← hc] at hs
    refine ⟨h₁.later, h₁.cursor, h₁.served, ?_, ?_, h₁.schedule⟩
    · intro f hf
      cases hs.symm.trans hf
    · rintro _ ⟨⟩
      exact ⟨_, rfl, by rw [← hc]; rfl, by rw [← hc]; rfl⟩
  · rw [wp_pure]
    exact h

/-- A `nextBatch` that returns has its window below the cursor, and everything below what it
committed was got before or is in the window. -/
theorem wp_nextBatch :
    Yields nextBatch l (fun f => Link.Inv base floor fun o => got o ∨ o ∈ f.offsets)
      (fun l' => base.Follows l'.log) := by
  rw [Yields, nextBatch, wp_bind]
  refine wp_mono (wp_takeWindow h) ?_ (fun _ _ h => h.later) (fun _ h => h.later)
  rintro f l₁ ⟨h₁, hp, hs, -, -, hcov⟩
  rw [wp_bind, wp_modify]
  -- from here on the window counts as got
  generalize hl₂ : l₁.mapConsumer _ = l₂
  have h₂ : Link.Inv base floor (fun o => got o ∨ o ∈ f.offsets) l₂ := by
    subst hl₂
    refine ⟨h₁.later, hcov.mono (min_le_left ..) le_rfl fun _ => id,
      h₁.served.mono le_rfl le_rfl fun _ => .inl, ?_, ?_, h₁.schedule⟩
    · intro f' hf'
      cases hs.symm.trans hf'
    · intro limit hl
      cases hp.symm.trans hl
  have hp₂ : l₂.consumer.prefetch = none := by subst hl₂; exact hp
  have hs₂ : l₂.consumer.stashed = none := by subst hl₂; exact hs
  rw [wp_bind]
  refine wp_mono (wp_commitIfDue h₂ hp₂ hs₂ _) ?_ (fun _ _ h => h.later) (fun _ h => h.later)
  rintro _ l₃ ⟨h₃, hs₃⟩
  rw [wp_bind]
  refine wp_mono (wp_readAhead h₃ hs₃ _) ?_ (fun _ _ h => h.later) (fun _ h => h.later)
  intro _ l₄ h₄
  rw [wp_pure]
  exact h₄

/-! ### A call that stops -/

omit h in
/-- Asking for a window ahead commits nothing. -/
theorem keeps_readAhead {maxBytes : Nat} (h : Link.Stopped base floor got l)
    (hsched : Scheduled maxBytes l.log l.schedule) (delivered : Nat) :
    Keeps (readAhead delivered) l (Link.Stopped base floor got) := by
  rw [Keeps, readAhead, wp_bind, wp_gets, wp_ite]
  refine ⟨fun _ => ?_, fun _ => wp_pure.mpr h⟩
  rw [wp_bind, sendStreamFetch, wp_effect]
  rcases hn : l.next with _ | ⟨x, l₁⟩
  · exact ⟨h, h⟩
  obtain ⟨h₁, -, -⟩ := h.next hsched hn
  dsimp only
  split_ifs
  · exact ⟨h₁, h₁⟩
  · exact ⟨wp_modify.mpr ⟨h₁.later, h₁.served⟩, ⟨h₁.later, h₁.served⟩⟩

omit h in
/-- The cadence commits nothing when it is not reached, or when the request does not go out. -/
theorem wp_commitIfDue_quiet {maxBytes delivered : Nat} (h : Link.Stopped base floor got l)
    (hsched : Scheduled maxBytes l.log l.schedule) (hp : l.consumer.prefetch = none)
    (hpos : 0 < delivered)
    (hquiet : l.consumer.batchesSinceCommit + 1 < l.consumer.commitCadence
      ∨ ∀ x ∈ l.schedule.head?, x.sendFails = true) :
    Yields (commitIfDue delivered) l
      (fun _ l' => Link.Stopped base floor got l' ∧ Scheduled maxBytes l'.log l'.schedule)
      (Link.Stopped base floor got) := by
  rw [Yields, commitIfDue, if_pos hpos, wp_bind, wp_modify, wp_bind, wp_gets, wp_ite]
  refine ⟨fun hdue => ?_, fun _ => wp_pure.mpr ⟨⟨h.later, h.served⟩, hsched⟩⟩
  have hfails := hquiet.resolve_left (not_lt.mpr hdue)
  have hnone : (l.mapConsumer fun c =>
      { c with batchesSinceCommit := c.batchesSinceCommit + 1 }).consumer.prefetch = none := hp
  rw [commitNow, wp_bind, drainPrefetch, wp_bind, wp_gets, hnone]
  dsimp only
  rw [wp_pure, wp_bind, wp_gets, wp_ite]
  refine ⟨fun _ => wp_pure.mpr ⟨⟨h.later, h.served⟩, hsched⟩, fun _ => ?_⟩
  -- the commit's own exchange is the one that fails
  rw [wp_bind, streamCommit, wp_effect]
  have h₀ : Link.Stopped base floor got (l.mapConsumer fun c =>
      { c with batchesSinceCommit := c.batchesSinceCommit + 1 }) := ⟨h.later, h.served⟩
  rcases hn : (l.mapConsumer fun c =>
      { c with batchesSinceCommit := c.batchesSinceCommit + 1 }).next with _ | ⟨x, l₁⟩
  · exact ⟨h₀, h₀⟩
  obtain ⟨h₁, -, hx⟩ := @Link.Stopped.next _ _ _ _ _ _ maxBytes h₀ hsched _ _ hn
  dsimp only
  rw [if_pos (hfails x hx)]
  exact ⟨h₁, h₁⟩

omit h in
/-- What is left of a call when the window is in hand leaves nothing behind where it stops, if the
window is empty, the cadence is not reached, or the commit's request does not go out. -/
theorem wp_rest {f : Fetch} (h : Link.Inv base floor got l) (hp : l.consumer.prefetch = none)
    (hs : l.consumer.stashed = none)
    (hquiet : f.messages = [] ∨ l.consumer.batchesSinceCommit + 1 < l.consumer.commitCadence
      ∨ ∀ x ∈ l.schedule.head?, x.sendFails = true) :
    Yields (do
        Prog.modify (Link.mapConsumer fun c =>
          { c with nextOffset := saturatingAdd c.nextOffset f.messages.length })
        commitIfDue f.messages.length
        readAhead f.messages.length
        pure f) l (fun _ _ => True) (Link.Stopped base floor got) := by
  rw [Yields, wp_bind, wp_modify, wp_bind]
  by_cases hempty : f.messages = []
  · -- the cursor stays where it is, and everything below it was got
    rw [hempty]
    have h₁ : Link.Inv base floor got (l.mapConsumer fun c =>
        { c with nextOffset := saturatingAdd c.nextOffset 0 }) := by
      refine ⟨h.later, h.cursor.mono (min_le_left ..) le_rfl fun _ => id, h.served,
        ?_, ?_, h.schedule⟩
      · intro f' hf'
        cases hs.symm.trans hf'
      · intro limit hl
        cases hp.symm.trans hl
    refine (wp_commitIfDue h₁ hp hs 0).imp ?_
    rintro _ l₂ ⟨h₂, hs₂⟩
    rw [wp_bind]
    exact (wp_readAhead h₂ hs₂ 0).imp fun _ _ _ => wp_pure.mpr trivial
  · have h₁ : Link.Stopped base floor got (l.mapConsumer fun c =>
        { c with nextOffset := saturatingAdd c.nextOffset f.messages.length }) :=
      ⟨h.later, h.served⟩
    refine (wp_commitIfDue_quiet h₁ h.schedule hp (length_pos_iff.mpr hempty)
      (hquiet.resolve_left hempty)).imp ?_
    rintro _ l₂ ⟨h₂, hsched₂⟩
    rw [wp_bind]
    exact (keeps_readAhead h₂ hsched₂ _).imp fun _ _ _ => wp_pure.mpr trivial

end StreamingConsumer

end Calls

/-! ## Runs -/

namespace StreamingConsumer

/-- A streaming group on the broker, its consumers one after another, and what their callers got. -/
structure World where
  server : StreamServer
  /-- The open handle and its request whose reply is unread. -/
  client : Option (StreamingConsumer × Option StreamFetchBody)
  /-- The offsets returned by calls of `nextBatch` that completed. -/
  returned : List Nat
  /-- The highest offset a consumer started from. -/
  floor : Nat

/-- A link is the open handle on its connection at the start of a call. -/
structure World.Calls (w : World) (l : Link) : Prop where
  client : w.client = some (l.consumer, l.request)
  server : l.server = w.server
  schedule : Scheduled l.consumer.config.maxBytes w.server.log l.schedule

/-- The world after a call that succeeded. -/
def World.after (w : World) (l : Link) (offsets : List Nat) : World :=
  ⟨l.server, some (l.consumer, l.request), w.returned ++ offsets, w.floor⟩

/-- The world after the client stopped, or failed and was dropped. -/
def World.without (w : World) (l : Link) : World := { w with server := l.server, client := none }

/-- A stop of a program: at one of its exchanges, or where it failed. -/
def StopsAt {α : Type} (m : LinkM α) (l t : Link) : Prop :=
  t ∈ (m l).trail ∨ ∃ e, (m l).out = .error e ∧ t = (m l).st

/-- A stop of a `nextBatch` that leaves nothing behind, by its position: the cadence is not reached,
the stop falls into the fetch of the window, the window is empty, or the request of the commit does
not go out. -/
def BeforeCommit (l t : Link) : Prop :=
  l.consumer.batchesSinceCommit + 1 < l.consumer.commitCadence ∨ StopsAt takeWindow l t
    ∨ (∀ f, (takeWindow l).out = .ok f → f.messages = [])
    ∨ ∀ x ∈ (takeWindow l).st.schedule.head?, x.sendFails = true

/-- One step of a run. The condition is that no `nextBatch` stops from the commit of the window in
its hands on; a handle is dropped after an error, as its documentation asks. -/
inductive Step : World → World → Prop
  | «open» {w : World} (config : StreamConsumerConfig) :
      Step w { w with client := some (.new config, none), floor := max w.floor config.startOffset }
  | nextBatch {w : World} {l : Link} {f : Fetch} (hcall : w.Calls l)
      (hok : (nextBatch l).out = .ok f) : Step w (w.after (nextBatch l).st f.offsets)
  | nextBatchStops {w : World} {l t : Link} (hcall : w.Calls l) (hstop : StopsAt nextBatch l t)
      (hclean : BeforeCommit l t) : Step w (w.without t)
  | commitNow {w : World} {l : Link} (hcall : w.Calls l) (hok : (commitNow l).out = .ok ()) :
      Step w (w.after (commitNow l).st [])
  | commitNowStops {w : World} {l t : Link} (hcall : w.Calls l) (hstop : StopsAt commitNow l t) :
      Step w (w.without t)
  | finish {w : World} {l t : Link} (hcall : w.Calls l)
      (hend : StopsAt finish l t ∨ t = (finish l).st) : Step w (w.without t)
  | close {w : World} : Step w { w with client := none }
  | move {w : World} {log : RangeLog} (paused : Bool) (hf : w.server.log.Follows log) :
      Step w { w with server := { w.server with log := log, paused := paused } }
  | restart {w : World} (committed : Nat) (hle : committed ≤ w.server.committed) :
      Step w { w with server := { w.server with committed := committed } }

abbrev Run := Relation.ReflTransGen Step

structure Inv (w : World) : Prop where
  served : w.server.log.Covers w.floor (· ∈ w.returned) w.server.committed
  wf : w.server.log.Wf
  link : ∀ l, w.Calls l → l.Inv w.server.log w.floor (· ∈ w.returned)

variable {w : World} {l : Link} {base : RangeLog}

theorem Inv.after {offsets : List Nat} {got : Nat → Prop} (h : l.Inv base w.floor got)
    (hgot : ∀ o, got o → o ∈ w.returned ++ offsets) :
    Inv (w.after l offsets) := by
  refine ⟨h.served.mono le_rfl le_rfl hgot, h.later.wf, ?_⟩
  rintro ⟨⟩ ⟨⟨⟩, rfl, hsched⟩
  refine ⟨h.later.wf.follows_refl, h.cursor.mono le_rfl le_rfl hgot,
    h.served.mono le_rfl le_rfl hgot, ?_, h.ahead, hsched⟩
  intro f hf
  obtain ⟨hp, hcov⟩ := h.stash f hf
  exact ⟨hp, hcov.mono le_rfl le_rfl fun o => Or.imp_left (hgot o)⟩

theorem Inv.without (h : l.Stopped base w.floor (· ∈ w.returned)) : Inv (w.without l) :=
  ⟨h.served, h.later.wf, fun _ hcall => by cases hcall.client⟩

omit [Compression] in
/-- What a specification says of a stop. -/
theorem StopsAt.of_wp {α : Type} {m : LinkM α} {t : Link} {Q : α → Link → Prop} {P : Link → Prop}
    (h : wp m l Q (fun _ => P) P) (hstop : StopsAt m l t) : P t := by
  rcases hstop with ht | ⟨e, he, rfl⟩
  · exact h.2 t ht
  · exact h.of_error he

omit [Compression] in
/-- A stop of a sequence falls into its first part, or into the rest. -/
theorem StopsAt.bind {α β : Type} {m : LinkM α} {k : α → LinkM β} {t : Link}
    (h : StopsAt (m >>= k) l t) :
    StopsAt m l t ∨ ∃ a, (m l).out = .ok a ∧ StopsAt (k a) (m l).st t := by
  have hrun : (m >>= k) l = andThen m k l := rfl
  rcases hm : m l with ⟨_ | a, s, trail⟩
  · left
    simp only [StopsAt, hrun, andThen, hm, Except.error.injEq] at h ⊢
    exact h
  · simp only [StopsAt, hrun, andThen, hm, mem_append] at h ⊢
    rcases h with (ht | ht) | herr
    · exact .inl (.inl ht)
    · exact .inr ⟨a, rfl, .inl ht⟩
    · exact .inr ⟨a, rfl, .inr herr⟩

/-- A stop of a `nextBatch` before its commit leaves what was committed covered. -/
theorem stopped_of_beforeCommit {floor : Nat} {got : Nat → Prop} {t : Link}
    (h : l.Inv base floor got) (hstop : StopsAt nextBatch l t) (hclean : BeforeCommit l t) :
    t.Stopped base floor got := by
  have hwindow := wp_takeWindow h
  rcases StopsAt.bind hstop with hfetch | ⟨f, hf, hrest⟩
  · exact hfetch.of_wp hwindow
  rcases hclean with hcadence | hfetch | hempty | hfails
  · obtain ⟨h₁, hp, hs, hbatches, hconfig, -⟩ := hwindow.of_ok hf
    refine hrest.of_wp (wp_rest h₁ hp hs (.inr (.inl ?_)))
    rwa [hbatches, commitCadence, hconfig]
  · exact hfetch.of_wp hwindow
  · obtain ⟨h₁, hp, hs, -⟩ := hwindow.of_ok hf
    exact hrest.of_wp (wp_rest h₁ hp hs (.inl (hempty f hf)))
  · obtain ⟨h₁, hp, hs, -⟩ := hwindow.of_ok hf
    exact hrest.of_wp (wp_rest h₁ hp hs (.inr (.inr hfails)))

theorem wp_finish {floor : Nat} {got : Nat → Prop} (h : l.Inv base floor got) :
    Keeps finish l (Link.Stopped base floor got) := by
  rw [Keeps, finish, wp_bind]
  refine (wp_commitNow h).imp ?_
  rintro _ l₁ ⟨h₁, -, -⟩
  rw [wp_gets]
  exact h₁.stopped

/-- Every step keeps what was got. -/
theorem Step.inv {w' : World} (h : Inv w) (hs : Step w w') : Inv w' := by
  cases hs with
  | «open» config =>
    have hfloor : w.floor ≤ max w.floor config.startOffset := le_max_left ..
    have hserved := h.served.mono le_rfl hfloor fun _ => id
    refine ⟨hserved, h.wf, ?_⟩
    rintro ⟨⟩ ⟨⟨⟩, rfl, hsched⟩
    exact ⟨h.wf.follows_refl, .of_le_floor (le_max_right ..), hserved, nofun, nofun, hsched⟩
  | nextBatch hcall hok =>
    have hnext := (wp_nextBatch (h.link _ hcall)).of_ok hok
    exact .after hnext fun o => mem_append.mpr
  | nextBatchStops hcall hstop hclean =>
    exact .without (stopped_of_beforeCommit (h.link _ hcall) hstop hclean)
  | commitNow hcall hok =>
    have hnext := (wp_commitNow (h.link _ hcall)).of_ok hok
    exact .after hnext.1 fun o ho => mem_append_left _ ho
  | commitNowStops hcall hstop =>
    exact .without (StopsAt.of_wp (wp_commitNow (h.link _ hcall)) hstop)
  | finish hcall hend =>
    have hkeeps := wp_finish (h.link _ hcall)
    rcases hend with hstop | rfl
    · exact .without (StopsAt.of_wp hkeeps hstop)
    · exact .without hkeeps.st
  | close => exact ⟨h.served, h.wf, fun _ hcall => by cases hcall.client⟩
  | move paused hf =>
    refine ⟨h.served.follows hf, hf.wf, ?_⟩
    rintro ⟨c, _, credit, size, request, _⟩ ⟨hclient, rfl, hsched⟩
    have hi := h.link ⟨c, w.server, credit, size, request, []⟩ ⟨hclient, rfl, trivial⟩
    refine ⟨hf.wf.follows_refl, hi.cursor.follows hf, hi.served.follows hf, ?_, hi.ahead, hsched⟩
    intro f hstash
    obtain ⟨hp, hcov⟩ := hi.stash f hstash
    exact ⟨hp, hcov.follows hf⟩
  | restart committed hle =>
    have hserved := h.served.mono hle le_rfl fun _ => id
    refine ⟨hserved, h.wf, ?_⟩
    rintro ⟨c, _, credit, size, request, _⟩ ⟨hclient, rfl, hsched⟩
    have hi := h.link ⟨c, w.server, credit, size, request, []⟩ ⟨hclient, rfl, trivial⟩
    exact ⟨hi.later, hi.cursor, hserved, hi.stash, hi.ahead, hsched⟩

theorem Run.inv {w' : World} (h : Inv w) (hr : Run w w') : Inv w' := by
  induction hr with
  | refl => exact h
  | tail _ hs ih => exact hs.inv ih

/-- A broker with a group that has committed nothing, before its first consumer. -/
def World.fresh (log : RangeLog) (streaming paused : Bool) : World :=
  ⟨⟨log, streaming, paused, 0⟩, none, [], 0⟩

/-- Over any log, in every run of consumers that stop at any point but between the commit and the
return of a `nextBatch`, every record below the offset committed on the broker was returned by a
`nextBatch` that completed, or lies below the offset a consumer started from. -/
theorem committed_received {log : RangeLog} (hlog : log.Wf) {streaming paused : Bool} {w : World}
    (hr : Run (World.fresh log streaming paused) w) {r : SlotRecord}
    (hmem : r ∈ w.server.log.records) (hlt : r.offset < w.server.committed) :
    r.offset < w.floor ∨ r.offset ∈ w.returned := by
  have hfresh : Inv (World.fresh log streaming paused) :=
    ⟨.of_le_floor le_rfl, hlog, fun _ hcall => by cases hcall.client⟩
  exact (hr.inv hfresh).served.below r hmem hlt

end StreamingConsumer

end IronBus

/-! ## A window that is returned, and one that is not -/

namespace IronBus

open Prog

namespace StreamingConsumer

section Sample

local instance : Checksums := ⟨castagnoli, fun _ => 0⟩

local instance : Compression := ⟨fun _ _ => none⟩

/-- A log of one record. -/
def oneRecordLog : RangeLog :=
  ⟨[⟨0, none, 1, [⟨0, .ofPayload [7] (by decide)⟩]⟩], 1, false⟩

theorem oneRecordLog_wf : oneRecordLog.Wf where
  bound := by decide
  within := by simp [oneRecordLog, RangeLog.Slot.coveredBaseOffset]
  ordered := List.pairwise_singleton ..
  sorted := by simp [oneRecordLog]
  dense := by
    rintro s hs - i r hr
    obtain rfl : s = ⟨0, none, 1, [⟨0, .ofPayload [7] (by decide)⟩]⟩ := by
      simpa [oneRecordLog] using hs
    obtain ⟨hi, rfl⟩ := List.getElem?_eq_some_iff.mp hr
    simp only [List.length_singleton, Nat.lt_one_iff] at hi
    subst hi
    rfl

-- a byte cap makes a read leave a compacted segment after its first record and go on with the next
-- segment, whose record still fits
example :
    (RangeLog.readRange ⟨[⟨0, some 0, 0, [⟨0, .ofPayload (List.replicate 10 0) (by decide)⟩,
        ⟨1, .ofPayload (List.replicate 10 0) (by decide)⟩]⟩,
      ⟨2, none, 3, [⟨2, .ofPayload [0] (by decide)⟩]⟩], 3, false⟩ 0 10 (some 100)).map
        (List.map OwnedRecord.offset) = .ok [0, 2] := by
  decide +kernel

/-- One exchange that succeeds. -/
def goodExchange : Exchange := ⟨oneRecordLog, false, ⟨10, 0, false, true, false⟩, false, false⟩

theorem goodExchange_whole : goodExchange.session.Whole goodExchange.log 0 where
  records := by
    intro r hr d hd
    obtain rfl : r = ⟨0, .ofPayload [7] (by decide)⟩ := by
      simpa [goodExchange, oneRecordLog, RangeLog.records] using hr
    cases hd
    decide
  runs := nofun
  uncut := .inr ⟨rfl, rfl⟩

theorem goodExchange_scheduled (n : Nat) :
    Scheduled 0 oneRecordLog (List.replicate n goodExchange) := by
  induction n with
  | zero => trivial
  | succ n ih => exact ⟨oneRecordLog_wf.follows_refl, goodExchange_whole, ih⟩

/-- A consumer that commits after every window and asks for none ahead. -/
def eachWindow : StreamConsumerConfig := ⟨10, 0, 1, 0, false⟩

/-- The world in which it was opened. -/
def openedWorld : World :=
  { World.fresh oneRecordLog true false with client := some (.new eachWindow, none) }

theorem run_openedWorld : Run (World.fresh oneRecordLog true false) openedWorld :=
  .single (.open eachWindow)

/-- Its first call, over a connection that does not fail. -/
def firstCall : Link :=
  ⟨.new eachWindow, openedWorld.server, none, 100, none, List.replicate 4 goodExchange⟩

/-- A call whose reply is lost, with the handle opened again after it. -/
theorem run_lostReply : Run (World.fresh oneRecordLog true false) openedWorld := by
  let lost : Link := ⟨.new eachWindow, openedWorld.server, none, 100, none,
    [goodExchange, { goodExchange with recvFails := true }]⟩
  have hsched : Scheduled 0 oneRecordLog [goodExchange, { goodExchange with recvFails := true }] :=
    ⟨oneRecordLog_wf.follows_refl, goodExchange_whole, oneRecordLog_wf.follows_refl,
      goodExchange_whole, trivial⟩
  have hstop : StopsAt nextBatch lost (nextBatch lost).st := .inr ⟨.io, rfl, rfl⟩
  have hfetch : StopsAt takeWindow lost (nextBatch lost).st := .inr ⟨.io, rfl, rfl⟩
  exact (run_openedWorld.tail (.nextBatchStops ⟨rfl, rfl, hsched⟩ hstop (.inr (.inl hfetch)))).tail
    (.open eachWindow)

/-- After a call whose reply was lost, the record below the committed offset was returned. -/
theorem committed_received_one :
    ∃ w : World, Run (World.fresh oneRecordLog true false) w ∧ w.server.committed = 1
      ∧ (0 < w.floor ∨ 0 ∈ w.returned) := by
  have hout : (nextBatch firstCall).out.map Fetch.offsets = .ok [0] := rfl
  cases hf : (nextBatch firstCall).out with
  | error e =>
    rw [hf] at hout
    cases hout
  | ok f =>
    have hrun := run_lostReply.tail (.nextBatch ⟨rfl, rfl, goodExchange_scheduled 4⟩ hf)
    exact ⟨_, hrun, rfl, committed_received oneRecordLog_wf hrun
      (show ⟨0, .ofPayload [7] (by decide)⟩ ∈ oneRecordLog.records from List.mem_singleton_self _)
      (show 0 < 1 from Nat.one_pos)⟩

/-- The same call, stopped after its commit: the record is committed and was never returned. -/
theorem committed_unreceived :
    ∃ t : Link, Run (World.fresh oneRecordLog true false) openedWorld
      ∧ Scheduled 0 oneRecordLog (List.replicate 4 goodExchange) ∧ StopsAt nextBatch firstCall t
      ∧ t.server.committed = 1 ∧ (∃ r ∈ t.server.log.records, r.offset = 0)
      ∧ openedWorld.floor = 0 ∧ openedWorld.returned = [] := by
  have hstop : ∃ t, (nextBatch firstCall).trail[2]? = some t ∧ t.server.committed = 1
      ∧ t.server.log = oneRecordLog := ⟨_, rfl, rfl, rfl⟩
  obtain ⟨t, ht, hcommitted, hlog⟩ := hstop
  refine ⟨t, run_openedWorld, goodExchange_scheduled 4, .inl (List.mem_of_getElem? ht), hcommitted,
    ?_, rfl, rfl⟩
  rw [hlog]
  exact ⟨_, List.mem_singleton_self _, rfl⟩

end Sample

end StreamingConsumer

end IronBus
