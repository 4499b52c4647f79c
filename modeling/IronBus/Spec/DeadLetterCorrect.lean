import IronBus.Native.DlqSink
import IronBus.Spec.GroupSlotCorrect

/-!
# A spent record gets one copy in every dead-letter target

A sink takes a copy only for an offset it does not know, so it never takes two as long as it knows
every copy that could be offered again, and what it knows is durable as long as no opening finds a
copy that no barrier covers. It forgets copies below the cursor of the group, and all of
them when the group is evicted: that is safe as long as the group comes back from its checkpoint.

Key results:
- `fanOut_spec`: what a pass over the targets leaves, wherever it stops
- `Reach.inv`: what ties sinks, cursor and spent records together, in every run
- `dead_lettered_once`: a cursor passes a spent record once every target has its copy, unless
  something other than the dead-letter pass settles the record first
-/

namespace IronBus

open GroupSlot AckCursor List WorkGroup

namespace DeadLetters

/-! ## One sink -/

/-- The copies of a record of a group. -/
def copies (name : Name) (o : Nat) (l : List DlqEntry) : List DlqEntry :=
  l.filter fun e => e.group = name ∧ e.sourceOffset = o

/-- The record has a durable copy. -/
def Recorded (name : Name) (o : Nat) (s : DlqSink) : Prop :=
  ∃ e ∈ s.durable, e.group = name ∧ e.sourceOffset = o

/-- What a sink knows about a group: no record twice, and every durable copy is either known or of a
record that the group has passed. -/
structure SinkInv (name : Name) (passed : Nat → Prop) (s : DlqSink) : Prop where
  once : ∀ o, (copies name o s.log).length ≤ 1
  flushed_le : s.flushed ≤ s.log.length
  thawed : s.frozen = false → s.flushed = s.log.length
  sound : ∀ o, (name, o) ∈ s.deadLettered → Recorded name o s
  known : ∀ e ∈ s.durable, e.group = name →
    (name, e.sourceOffset) ∈ s.deadLettered ∨ passed e.sourceOffset

section Sinks

variable {name : Name} {passed passed' : Nat → Prop} {s : DlqSink} {entry : DlqEntry} {o : Nat}

theorem SinkInv.mono (h : SinkInv name passed s) (hpassed : ∀ o, passed o → passed' o) :
    SinkInv name passed' s :=
  ⟨h.once, h.flushed_le, h.thawed, h.sound,
    fun e he hgroup => (h.known e he hgroup).imp_right (hpassed _)⟩

theorem sinkInv_empty (name : Name) (passed : Nat → Prop) : SinkInv name passed .empty :=
  ⟨fun _ => Nat.zero_le _, Nat.le_refl _, fun _ => rfl, nofun, nofun⟩

/-- A record that is neither known nor passed has no copy in a sink that still works. -/
theorem SinkInv.copies_eq_nil (h : SinkInv name passed s) (hthawed : s.frozen = false)
    (hnew : (name, o) ∉ s.deadLettered) (hopen : ¬ passed o) : copies name o s.log = [] := by
  refine filter_eq_nil_iff.mpr fun e he hmatch => ?_
  obtain ⟨hgroup, hoff⟩ := of_decide_eq_true hmatch
  have hdurable : e ∈ s.durable := by
    rw [DlqSink.durable, h.thawed hthawed, take_length]
    exact he
  rcases h.known e hdurable hgroup with hk | hp
  · exact hnew (hoff ▸ hk)
  · exact hopen (hoff ▸ hp)

/-- Adding a copy of a record that has none. -/
theorem copies_append_le (hnil : copies name entry.sourceOffset s.log = [])
    (honce : ∀ o, (copies name o s.log).length ≤ 1) (o : Nat) :
    (copies name o (s.log ++ [entry])).length ≤ 1 := by
  rw [copies, filter_append, length_append]
  by_cases ho : entry.sourceOffset = o
  · subst ho
    have : (copies name entry.sourceOffset s.log).length = 0 := by rw [hnil]; rfl
    have hlast :
        ([entry].filter fun e => e.group = name ∧ e.sourceOffset = entry.sourceOffset).length
        ≤ 1 := length_filter_le _ _
    rw [copies] at this
    omega
  · have hlast : [entry].filter (fun e => e.group = name ∧ e.sourceOffset = o) = [] := by simp [ho]
    rw [hlast]
    exact honce o

/-- Every copy of the sink is still there, with at most one more. -/
structure Extends (name : Name) (entry : DlqEntry) (s s' : DlqSink) : Prop where
  recorded : ∀ o, Recorded name o s → Recorded name o s'
  log : ∀ e ∈ s'.log, e = entry ∨ e ∈ s.log

theorem Extends.refl (name : Name) (entry : DlqEntry) (s : DlqSink) : Extends name entry s s :=
  ⟨fun _ h => h, fun _ h => .inr h⟩

theorem mem_append_entry {e : DlqEntry} {l : List DlqEntry} (he : e ∈ l ++ [entry]) :
    e = entry ∨ e ∈ l := by
  rcases mem_append.mp he with he | he
  · exact .inr he
  · exact .inl (mem_singleton.mp he)

/-- A copy is taken. -/
theorem SinkInv.taken (h : SinkInv name passed s) (hfrozen : s.frozen = false)
    (hgroup : entry.group = name) (hnew : (name, entry.sourceOffset) ∉ s.deadLettered)
    (hopen : ¬ passed entry.sourceOffset) (s' : DlqSink) (hlog : s'.log = s.log ++ [entry])
    (hflushed : s'.flushed = s.log.length + 1)
    (hset : s'.deadLettered = (entry.group, entry.sourceOffset) :: s.deadLettered) :
    SinkInv name passed s' ∧ Extends name entry s s' ∧ Recorded name entry.sourceOffset s' := by
  have hlen : s'.flushed = s'.log.length := by rw [hflushed, hlog, length_append]; rfl
  have hdurable : s'.durable = s.log ++ [entry] := by
    rw [DlqSink.durable, hlen, take_length, hlog]
  have hold : s.durable = s.log := by rw [DlqSink.durable, h.thawed hfrozen, take_length]
  have hkeep : ∀ o, Recorded name o s → Recorded name o s' := by
    rintro o ⟨e, he, hmatch⟩
    exact ⟨e, by rw [hdurable]; exact mem_append_left _ (hold ▸ he), hmatch⟩
  have hself : Recorded name entry.sourceOffset s' :=
    ⟨entry, by rw [hdurable]; exact mem_append_right _ mem_cons_self, hgroup, rfl⟩
  refine ⟨⟨?_, hlen.le, fun _ => hlen, fun o ho => ?_, fun e he hg => ?_⟩,
    ⟨hkeep, fun e he => mem_append_entry (hlog ▸ he)⟩, hself⟩
  · rw [hlog]
    exact copies_append_le (h.copies_eq_nil hfrozen hnew hopen) h.once
  · rw [hset] at ho
    rcases mem_cons.mp ho with heq | ho
    · cases heq
      exact hself
    · exact hkeep o (h.sound o ho)
  · rw [hset]
    rw [hdurable] at he
    rcases mem_append_entry he with rfl | he
    · exact .inl (by rw [← hgroup]; exact mem_cons_self)
    · exact (h.known e (hold ▸ he) hg).imp_left (mem_cons_of_mem _)

/-- A copy is written, but not durable, and the sink takes no more. -/
theorem SinkInv.unsynced (h : SinkInv name passed s) (hfrozen : s.frozen = false)
    (hnew : (name, entry.sourceOffset) ∉ s.deadLettered) (hopen : ¬ passed entry.sourceOffset)
    (s' : DlqSink) (hlog : s'.log = s.log ++ [entry]) (hflushed : s'.flushed = s.flushed)
    (hset : s'.deadLettered = s.deadLettered) (hfrozen' : s'.frozen = true) :
    SinkInv name passed s' ∧ Extends name entry s s' := by
  have hdurable : s'.durable = s.durable := by
    rw [DlqSink.durable, DlqSink.durable, hlog, hflushed,
      take_append_of_le_length h.flushed_le]
  have hkeep : ∀ o, Recorded name o s → Recorded name o s' := fun o hrec => by
    rw [Recorded, hdurable]
    exact hrec
  refine ⟨⟨?_, ?_, fun hno => ?_, fun o ho => hkeep o (h.sound o (hset ▸ ho)), fun e he hg => ?_⟩,
    hkeep, fun e he => mem_append_entry (hlog ▸ he)⟩
  · rw [hlog]
    exact copies_append_le (h.copies_eq_nil hfrozen hnew hopen) h.once
  · rw [hflushed, hlog, length_append]
    exact h.flushed_le.trans (Nat.le_add_right _ _)
  · rw [hfrozen'] at hno
    cases hno
  · rw [hset]
    exact h.known e (hdurable ▸ he) hg

/-- An append of a record that is neither known nor passed, whatever the storage does. -/
theorem SinkInv.append (h : SinkInv name passed s) (fault : Option SinkFault)
    (hgroup : entry.group = name) (hnew : (name, entry.sourceOffset) ∉ s.deadLettered)
    (hopen : ¬ passed entry.sourceOffset) :
    SinkInv name passed (s.append fault entry).2 ∧ Extends name entry s (s.append fault entry).2
      ∧ ((s.append fault entry).1 = .ok () →
        Recorded name entry.sourceOffset (s.append fault entry).2) := by
  unfold DlqSink.append
  by_cases hfrozen : s.frozen = true
  · rw [if_pos hfrozen]
    exact ⟨h, .refl _ _ _, nofun⟩
  · rw [if_neg hfrozen]
    rw [Bool.not_eq_true] at hfrozen
    rcases fault with _ | e | _
    · obtain ⟨hinv, hext, hrec⟩ := h.taken hfrozen hgroup hnew hopen { s with
        log := s.log ++ [entry], flushed := s.log.length + 1
        deadLettered := (entry.group, entry.sourceOffset) :: s.deadLettered } rfl rfl rfl
      exact ⟨hinv, hext, fun _ => hrec⟩
    · exact ⟨h, .refl _ _ _, nofun⟩
    · obtain ⟨hinv, hext⟩ := h.unsynced hfrozen hnew hopen
        { s with log := s.log ++ [entry], frozen := true } rfl rfl rfl rfl
      exact ⟨hinv, hext, nofun⟩

/-- Trimming below a watermark that the group has passed. -/
theorem SinkInv.pruneBelow (h : SinkInv name passed s) {committed : Nat}
    (hpassed : ∀ o < committed, passed o) : SinkInv name passed (s.pruneBelow name committed) := by
  refine ⟨h.once, h.flushed_le, h.thawed, fun o ho => h.sound o (mem_filter.mp ho).1,
    fun e he hg => ?_⟩
  by_cases hlt : e.sourceOffset < committed
  · exact .inr (hpassed _ hlt)
  · refine (h.known e he hg).imp_left fun hk => mem_filter.mpr ⟨hk, ?_⟩
    simp only [Bool.or_eq_true, decide_eq_true_eq]
    exact .inr (not_lt.mp hlt)

/-- Forgetting a group that has passed all its copies. -/
theorem SinkInv.forgetGroup (h : SinkInv name passed s)
    (hpassed : ∀ e ∈ s.log, e.group = name → passed' e.sourceOffset) :
    SinkInv name passed' (s.forgetGroup name) :=
  ⟨h.once, h.flushed_le, h.thawed, fun o ho => h.sound o (mem_filter.mp ho).1,
    fun e he hg => .inr (hpassed e (mem_of_mem_take he) hg)⟩

/-- An opening finds no copy that no barrier covers: there was none, it is gone, or recovery cuts a
torn tail behind it and syncs. -/
def Covered (s : DlqSink) (found : DlqSink.Found) : Prop :=
  s.flushed < s.log.length → found.torn = true ∨ found.kept ≤ s.flushed

theorem flushed_openAt (hle : s.flushed ≤ s.log.length) {found : DlqSink.Found}
    (hfound : Covered s found) : (s.openAt found).flushed = (s.openAt found).log.length := by
  cases htorn : found.torn with
  | true => simp only [DlqSink.openAt, htorn, if_true]
  | false =>
    simp only [DlqSink.openAt, htorn, Bool.false_eq_true, if_false, length_take]
    rcases lt_or_ge s.flushed s.log.length with hlt | hge
    · rcases hfound hlt with hno | hkept
      · rw [htorn] at hno
        cases hno
      · omega
    · omega

/-- A sink that is opened again knows all its copies, and loses no durable one. -/
theorem SinkInv.openAt (h : SinkInv name passed s) (passed' : Nat → Prop)
    {found : DlqSink.Found} (hfound : Covered s found) :
    SinkInv name passed' (s.openAt found)
      ∧ (∀ o, Recorded name o s → Recorded name o (s.openAt found))
      ∧ ∀ e ∈ (s.openAt found).log, e ∈ s.log := by
  have hlog : (s.openAt found).log.Sublist s.log := take_sublist _ _
  have hlen := flushed_openAt h.flushed_le hfound
  have hdurable : (s.openAt found).durable = (s.openAt found).log := by
    rw [DlqSink.durable, hlen, take_length]
  refine ⟨⟨fun o => ?_, hlen.le, fun _ => hlen, fun o ho => ?_, fun e he hg => .inl ?_⟩,
    fun o hrec => ?_, fun e he => hlog.subset he⟩
  · exact (hlog.filter _).length_le.trans (h.once o)
  · obtain ⟨e, he, heq⟩ := mem_map.mp ho
    obtain ⟨hg, hoff⟩ := Prod.mk.inj heq
    exact ⟨e, by rw [hdurable]; exact he, hg, hoff⟩
  · rw [hdurable] at he
    exact mem_map.mpr ⟨e, he, by rw [hg]⟩
  · obtain ⟨e, he, hmatch⟩ := hrec
    refine ⟨e, ?_, hmatch⟩
    rw [hdurable]
    exact (take_sublist_take_left (le_max_left _ _)).subset he

/-- A fan-out leaves every target sound, wherever it fails; if it succeeds, each has the copy. -/
theorem fanOut_spec (sinks : List DlqSink) (faults : List (Option SinkFault))
    (hinv : ∀ s ∈ sinks, SinkInv name passed s) (hgroup : entry.group = name)
    (hopen : ¬ passed entry.sourceOffset) :
    (∀ s' ∈ (fanOutDeadLetter name entry.sourceOffset entry sinks faults).2,
        SinkInv name passed s' ∧ ∃ s ∈ sinks, Extends name entry s s')
      ∧ ((fanOutDeadLetter name entry.sourceOffset entry sinks faults).1 = .ok () →
        ∀ s' ∈ (fanOutDeadLetter name entry.sourceOffset entry sinks faults).2,
          Recorded name entry.sourceOffset s') := by
  induction sinks generalizing faults with
  | nil => exact ⟨nofun, fun _ => nofun⟩
  | cons s sinks ih =>
    have hs := hinv s mem_cons_self
    obtain ⟨hrest, hok⟩ := ih faults.tail fun s' hs' => hinv s' (mem_cons_of_mem _ hs')
    have hlift : ∀ s' ∈ (fanOutDeadLetter name entry.sourceOffset entry sinks faults.tail).2,
        SinkInv name passed s' ∧ ∃ s₀ ∈ s :: sinks, Extends name entry s₀ s' := fun s' hs' => by
      obtain ⟨hinv', s₀, hmem, hext⟩ := hrest s' hs'
      exact ⟨hinv', s₀, mem_cons_of_mem _ hmem, hext⟩
    unfold fanOutDeadLetter
    by_cases hknown : s.alreadyDeadLettered name entry.sourceOffset = true
    · rw [if_pos hknown]
      refine ⟨forall_mem_cons.2 ⟨⟨hs, s, mem_cons_self, .refl _ _ _⟩, hlift⟩, fun heq => ?_⟩
      exact forall_mem_cons.2 ⟨hs.sound _ (of_decide_eq_true hknown), hok heq⟩
    · rw [if_neg hknown]
      obtain ⟨hinv', hext, hrec⟩ := hs.append faults.head?.join hgroup
        (fun hmem => hknown (decide_eq_true hmem)) hopen
      rcases hres : s.append faults.head?.join entry with ⟨_ | _, s₁⟩
      · rw [hres] at hinv' hext
        refine ⟨forall_mem_cons.2 ⟨⟨hinv', s, mem_cons_self, hext⟩, fun s' hs' => ?_⟩, nofun⟩
        exact ⟨hinv s' (mem_cons_of_mem _ hs'), s', mem_cons_of_mem _ hs', .refl _ _ _⟩
      · rw [hres] at hinv' hext hrec
        refine ⟨forall_mem_cons.2 ⟨⟨hinv', s, mem_cons_self, hext⟩, hlift⟩, fun heq => ?_⟩
        exact forall_mem_cons.2 ⟨hrec rfl, hok heq⟩

end Sinks

/-! ## Runs -/

/-- A group with the targets of its stream, and the records whose limit was spent. -/
structure World where
  slot : GroupSlot
  sinks : List DlqSink
  budget : RetryBudget
  /-- The durable head the log has shown. -/
  head : Nat
  spent : List Nat

/-- A poll finds the limit of a record spent: the record is to be dead-lettered, or it ends a run of
filtered records and is left for a later poll. -/
def spends (cfg : EngineConfig) (g : WorkGroup) (e : PollEnd) (g' : WorkGroup) : List Nat :=
  match e with
  | .deadLetter o _ _ .maxDeliverExceeded => [o]
  | .ok (.filtered _ stop) => if g'.cursor.isAcked stop = false
      ∧ cfg.delivery.disposition (saturatingAddU32 (g.leases.attempts stop) 1) = .deadLetter
    then [stop] else []
  | _ => []

namespace World

def start (cfg : EngineConfig) (budget : RetryBudget) (head : Nat) : World :=
  ⟨.empty, List.replicate cfg.deadLetterTargets .empty, budget, head, []⟩

def withGroup (w : World) (g : WorkGroup) : World :=
  { w with slot := { w.slot with live := some g } }

/-- The world after a poll of `g`: a record to dead-letter is moved to the targets. -/
def polled (home : Home) (cfg : EngineConfig) (name : Name) (env : PollEnv)
    (faults : List (Option SinkFault)) (g : WorkGroup) (w : World)
    (res : PollEnd × RetryBudget × WorkGroup) : World :=
  let w := { w.withGroup res.2.2 with
    budget := res.2.1, head := env.flushed,
    spent := w.spent ++ spends cfg g res.1 res.2.2 }
  match res.1 with
  | .deadLetter o attempt record reason =>
    let moved := res.2.2.deadLetterIn home cfg name faults o attempt record reason w.sinks
    { w.withGroup moved.2.1 with sinks := moved.2.2 }
  | _ => w

/-- Every target has a durable copy. -/
def AllRecorded (name : Name) (w : World) (o : Nat) : Prop := ∀ s ∈ w.sinks, Recorded name o s

/-- The limit of a record is spent and not every target has a copy. -/
def Pending (name : Name) (w : World) (o : Nat) : Prop := o ∈ w.spent ∧ ¬ w.AllRecorded name o

end World

/-- What a log shows: a read returns the first record at or above its offset, below the durable head
and not below the earliest. -/
structure Shows (env : PollEnv) : Prop where
  below : ∀ o r, env.read o = .ok (some r) → r.offset < env.flushed
  first : ∀ o r, env.read o = .ok (some r) →
    ∀ o' r', Reads env o' r' → o ≤ o' → r.offset ≤ o'
  earliest_le : ∀ o r, Reads env o r → env.earliest ≤ o
  earliest_le_flushed : env.earliest ≤ env.flushed
  width : env.flushed ≤ u64Max

/-- The record is there, and no poll passes it over. -/
def Kept (cfg : EngineConfig) (env : PollEnv) (g : WorkGroup) (o : Nat) : Prop :=
  ∃ r, Reads env o r ∧ ¬ Unwanted cfg env g r

section Steps

variable [Checksums]

/-- The steps of a group with its targets. -/
inductive Step (home : Home) (cfg : EngineConfig) (name : Name) : World → World → Prop where
  | poll {w : World} {g : WorkGroup} (env : PollEnv) (member : Option MemberId)
    (faults : List (Option SinkFault)) (hlive : w.slot.live = some g) (hlog : Shows env)
    (hhead : w.head ≤ env.flushed)
    -- a spent record without its copies is neither reaped, compacted, filtered out nor expired
    (hkept : ∀ o, w.Pending name o → Kept (home.config cfg) env g o)
    (hreset : ForgetsNothing env g.cursor) :
    Step home cfg name w (w.polled home cfg name env faults g
      (g.pollInStream home cfg env member w.budget))
  /-- A consumer acknowledges no spent record that lacks a copy. -/
  | ack {w : World} {g : WorkGroup} (now : Nat) (token : LeaseToken) (hlive : w.slot.live = some g)
    (hsettled : ¬ w.Pending name token.offset) :
    Step home cfg name w (w.withGroup (g.ackIn cfg now token).2)
  | term {w : World} {g : WorkGroup} (env : PollEnv) (faults : List (Option SinkFault))
    (token : LeaseToken) (hlive : w.slot.live = some g) (hlog : Shows env)
    (hhead : w.head ≤ env.flushed) (hsettled : ¬ w.Pending name token.offset)
    (hopen : g.cursor.isAcked token.offset = false) :
    Step home cfg name w { w.withGroup (g.termInTargets cfg env name faults token w.sinks).2.1 with
      sinks := (g.termInTargets cfg env name faults token w.sinks).2.2, head := env.flushed }
  | nack {w : World} {g : WorkGroup} (now : Nat) (token : LeaseToken) (delayMs : Nat)
    (hlive : w.slot.live = some g) :
    Step home cfg name w (w.withGroup (g.nackIn cfg now token delayMs).2)
  | progress {w : World} {g : WorkGroup} (now : Nat) (token : LeaseToken)
    (hlive : w.slot.live = some g) :
    Step home cfg name w (w.withGroup (g.progressIn now token).2)
  /-- Filters, modes and pauses change neither the cursor nor which offsets are leased. -/
  | mode {w : World} {g : WorkGroup} (g' : WorkGroup) (hlive : w.slot.live = some g)
    (hcursor : g'.cursor = g.cursor)
    (hleases : ∀ o, g.leases.leases.get o = none → g'.leases.leases.get o = none) :
    Step home cfg name w (w.withGroup g')
  | checkpoint {w : World} : Step home cfg name w { w with slot := w.slot.checkpointGroup }
  | evictIdle {w : World} {g : WorkGroup} (flushed now window : Nat) (ghost : GhostPolicy)
    (hhome : home = .default) (hlive : w.slot.live = some g) (hhead : w.head ≤ flushed)
    (hidle : isEvictable name g flushed now window = true) :
    Step home cfg name w { w with
      slot := w.slot.evictGroup ghost, sinks := w.sinks.map (·.forgetGroup name), head := flushed }
  /-- The group comes back from its checkpoint. -/
  | ensure {w : World} (env : PollEnv) (hhome : home = .default) (hhead : w.head ≤ env.flushed)
    (hwidth : env.flushed ≤ u64Max) (hephemeral : w.slot.ephemeral = none) :
    Step home cfg name w { w with slot := w.slot.ensureGroup cfg env, head := env.flushed }
  | evictStream {w : World} (found : DlqSink → DlqSink.Found) (hhome : home = .named)
    (hfound : ∀ s ∈ w.sinks, Covered s (found s)) :
    Step home cfg name w { w with
      slot := w.slot.evictNamedStream, sinks := w.sinks.map fun s => s.openAt (found s) }
  | reopenStream {w : World} (env : PollEnv) (hhome : home = .named) (hlive : w.slot.live = none)
    (hhead : w.head ≤ env.flushed) (hwidth : env.flushed ≤ u64Max) :
    Step home cfg name w { w with slot := w.slot.reopenNamedStream cfg env, head := env.flushed }
  /-- A crash and a restart. -/
  | restart {w : World} (env : PollEnv) (found : DlqSink → DlqSink.Found)
    (hhead : w.head ≤ env.flushed) (hwidth : env.flushed ≤ u64Max)
    (hfound : ∀ s ∈ w.sinks, Covered s (found s)) :
    Step home cfg name w { w with
      slot := w.slot.restart cfg env
      sinks := w.sinks.map fun s => s.openAt (found s)
      head := env.flushed }
  /-- A group that has neither a checkpoint nor a copy starts at offset zero. -/
  | create {w : World} (now : Nat) (hlive : w.slot.live = none) (hfile : w.slot.cursorFile = none)
    (hnone : ∀ s ∈ w.sinks, ∀ e ∈ s.log, e.group ≠ name) :
    Step home cfg name w (w.withGroup (new cfg.lease now))

def Reach (home : Home) (cfg : EngineConfig) (name : Name) : World → World → Prop :=
  Relation.ReflTransGen (Step home cfg name)

end Steps

/-! ## The invariant -/

/-- What the group will not be given again: what is below its watermark, or, while it is idle, below
that of its checkpoint. -/
def World.Passed (home : Home) (w : World) (o : Nat) : Prop :=
  match w.slot.live with
  | some g => o < g.cursor.committed
  | none => home = .default ∧ ∃ c, w.slot.cursorFile = some c ∧ o < c.committed

/-- A cursor of the group: it covers durable records only, and a spent one only with its copies. -/
structure CursorInv (name : Name) (w : World) (c : AckCursor) : Prop where
  wf : c.Wf
  below : ∀ o, c.isAcked o = true → o < w.head
  recorded : ∀ o ∈ w.spent, c.isAcked o = true → w.AllRecorded name o

structure GroupInv (name : Name) (w : World) (g : WorkGroup) : Prop
    extends CursorInv name w g.cursor where
  leases : ∀ o, w.head ≤ o → g.leases.leases.get o = none
  file_le : ∀ c, w.slot.cursorFile = some c → c.acked ⊆ g.cursor.acked

structure Inv (home : Home) (name : Name) (w : World) : Prop where
  sinks : ∀ s ∈ w.sinks, SinkInv name (w.Passed home) s
  below : ∀ s ∈ w.sinks, ∀ e ∈ s.log, e.group = name → e.sourceOffset < w.head
  live : ∀ g, w.slot.live = some g → GroupInv name w g
  file : ∀ c, w.slot.cursorFile = some c → CursorInv name w c

section Lemmas

variable {home : Home} {cfg : EngineConfig} {name : Name} {w : World} {g g' : WorkGroup}
  {env : PollEnv}

theorem CursorInv.mono {w' : World} {c : AckCursor} (h : CursorInv name w c)
    (hhead : w.head ≤ w'.head) (hspent : w'.spent = w.spent)
    (hrec : ∀ o, w.AllRecorded name o → w'.AllRecorded name o) : CursorInv name w' c :=
  ⟨h.wf, fun o ho => (h.below o ho).trans_le hhead,
    fun o hs ho => hrec o (h.recorded o (hspent ▸ hs) ho)⟩

/-- Nothing happens to the group, and the targets keep their copies. -/
theorem Inv.mono {w' : World} (h : Inv home name w) (hslot : w'.slot = w.slot)
    (hhead : w.head ≤ w'.head) (hspent : w'.spent = w.spent)
    (hsinks : ∀ s ∈ w'.sinks, SinkInv name (w.Passed home) s)
    (hbelow : ∀ s ∈ w'.sinks, ∀ e ∈ s.log, e.group = name → e.sourceOffset < w'.head)
    (hrec : ∀ o, w.AllRecorded name o → w'.AllRecorded name o) : Inv home name w' := by
  have hpassed : w'.Passed home = w.Passed home := by
    funext o
    rw [World.Passed, World.Passed, hslot]
  refine ⟨hpassed ▸ hsinks, hbelow, fun g hg => ?_,
    fun c hc => (h.file c (hslot ▸ hc)).mono hhead hspent hrec⟩
  have hlive := h.live g (hslot ▸ hg)
  exact ⟨hlive.toCursorInv.mono hhead hspent hrec, fun o ho => hlive.leases o (hhead.trans ho),
    fun c hc => hlive.file_le c (hslot ▸ hc)⟩

/-- The durable head moves on. -/
theorem Inv.advance (h : Inv home name w) {head : Nat} (hle : w.head ≤ head) :
    Inv home name { w with head := head } :=
  h.mono rfl hle rfl h.sinks (fun s hs e he hg => (h.below s hs e he hg).trans_le hle)
    fun _ hrec => hrec

theorem Inv.setBudget (h : Inv home name w) (budget : RetryBudget) :
    Inv home name { w with budget := budget } :=
  h.mono rfl le_rfl rfl h.sinks h.below fun _ hrec => hrec

/-- A live group that has passed no less and takes no lease above the head. -/
theorem Inv.regroup (h : Inv home name w) (hlive : w.slot.live = some g) (hwf : g'.cursor.Wf)
    (hcommitted : g.cursor.committed ≤ g'.cursor.committed)
    (hfile : ∀ c, w.slot.cursorFile = some c → c.acked ⊆ g'.cursor.acked)
    (hnew : ∀ o, g'.cursor.isAcked o = true → g.cursor.isAcked o = true
      ∨ (o < w.head ∧ (o ∈ w.spent → w.AllRecorded name o)))
    (hleases : ∀ o, w.head ≤ o → g.leases.leases.get o = none → g'.leases.leases.get o = none) :
    Inv home name (w.withGroup g') := by
  have hold := h.live g hlive
  have hpassed : ∀ o, w.Passed home o → (w.withGroup g').Passed home o := fun o ho => by
    rw [World.Passed, hlive] at ho
    exact lt_of_lt_of_le ho hcommitted
  refine ⟨fun s hs => (h.sinks s hs).mono hpassed, h.below, fun g₁ hg₁ => ?_,
    fun c hc => (h.file c hc).mono le_rfl rfl fun _ hrec => hrec⟩
  obtain rfl := Option.some.inj hg₁
  refine ⟨⟨hwf, fun o ho => ?_, fun o hspent ho => ?_⟩,
    fun o ho => hleases o ho (hold.leases o ho), hfile⟩
  · rcases hnew o ho with ho | ⟨hlt, -⟩
    · exact hold.below o ho
    · exact hlt
  · rcases hnew o ho with ho | ⟨-, hrec⟩
    · exact hold.recorded o hspent ho
    · exact hrec hspent

/-- The same when the cursor takes nothing back. -/
theorem Inv.regroup_of_subset (h : Inv home name w) (hlive : w.slot.live = some g)
    (hwf : g'.cursor.Wf) (hsub : g.cursor.acked ⊆ g'.cursor.acked)
    (hnew : ∀ o, g'.cursor.isAcked o = true → g.cursor.isAcked o = true
      ∨ (o < w.head ∧ (o ∈ w.spent → w.AllRecorded name o)))
    (hleases : ∀ o, w.head ≤ o → g.leases.leases.get o = none → g'.leases.leases.get o = none) :
    Inv home name (w.withGroup g') :=
  h.regroup hlive hwf (committed_le_of_acked_subset (h.live g hlive).wf hwf hsub)
    (fun c hc => ((h.live g hlive).file_le c hc).trans hsub) hnew hleases

/-- Records whose limit is found spent are not passed yet. -/
theorem Inv.spend (h : Inv home name w) (hlive : w.slot.live = some g) (mark : List Nat)
    (hopen : ∀ o ∈ mark, g.cursor.isAcked o = false) :
    Inv home name { w with spent := w.spent ++ mark } := by
  have hold := h.live g hlive
  have hcursor {c : AckCursor} (hc : CursorInv name w c) (hsub : c.acked ⊆ g.cursor.acked) :
      CursorInv name { w with spent := w.spent ++ mark } c := by
    refine ⟨hc.wf, hc.below, fun o hspent ho => ?_⟩
    rcases mem_append.mp hspent with hspent | hmark
    · exact hc.recorded o hspent ho
    · have : g.cursor.isAcked o = true := hsub ho
      rw [hopen o hmark] at this
      cases this
  refine ⟨h.sinks, h.below, fun g₁ hg₁ => ?_, fun c hc => hcursor (h.file c hc) (hold.file_le c hc)⟩
  obtain rfl := Option.some.inj (hlive.symm.trans hg₁)
  exact ⟨hcursor hold.toCursorInv subset_rfl, hold.leases, hold.file_le⟩

/-- A fan-out of a record that the group has not passed. -/
theorem Inv.fanOut (h : Inv home name w) (entry : DlqEntry) (faults : List (Option SinkFault))
    (hgroup : entry.group = name) (hopen : ¬ w.Passed home entry.sourceOffset)
    (hhead : entry.sourceOffset < w.head) :
    Inv home name { w with
        sinks := (fanOutDeadLetter name entry.sourceOffset entry w.sinks faults).2 }
      ∧ ((fanOutDeadLetter name entry.sourceOffset entry w.sinks faults).1 = .ok () →
        ∀ s ∈ (fanOutDeadLetter name entry.sourceOffset entry w.sinks faults).2,
          Recorded name entry.sourceOffset s)
      ∧ ∀ o, w.AllRecorded name o →
        ∀ s ∈ (fanOutDeadLetter name entry.sourceOffset entry w.sinks faults).2,
          Recorded name o s := by
  obtain ⟨hall, hok⟩ := fanOut_spec w.sinks faults h.sinks hgroup hopen
  have hkeep : ∀ o, w.AllRecorded name o →
      ∀ s ∈ (fanOutDeadLetter name entry.sourceOffset entry w.sinks faults).2,
        Recorded name o s := fun o hrec s hs => by
    obtain ⟨-, s₀, hs₀, hext⟩ := hall s hs
    exact hext.recorded o (hrec s₀ hs₀)
  refine ⟨h.mono rfl le_rfl rfl (fun s hs => (hall s hs).1) (fun s hs e he hg => ?_) hkeep,
    hok, hkeep⟩
  obtain ⟨-, s₀, hs₀, hext⟩ := hall s hs
  rcases hext.log e he with rfl | he
  · exact hhead
  · exact h.below s₀ hs₀ e he hg

/-- Trimming the targets below the watermark of the live group. -/
theorem Inv.prune (h : Inv home name w) (hlive : w.slot.live = some g) :
    Inv home name { w with sinks := w.sinks.map (·.pruneBelow name g.cursor.committed) } := by
  refine h.mono rfl le_rfl rfl (fun s hs => ?_) (fun s hs e he hg => ?_)
    fun o hrec s hs => ?_
  all_goals obtain ⟨s₀, hs₀, rfl⟩ := mem_map.mp hs
  · refine (h.sinks s₀ hs₀).pruneBelow fun o ho => ?_
    rw [World.Passed, hlive]
    exact ho
  · exact h.below s₀ hs₀ e he hg
  · exact hrec s₀ hs₀

theorem withGroup_self (hlive : w.slot.live = some g) : w.withGroup g = w := by
  rw [World.withGroup, ← hlive]

/-- An offset that is not acknowledged is not passed. -/
theorem not_passed (home : Home) (hlive : w.slot.live = some g) (hwf : g.cursor.Wf) {o : Nat}
    (hopen : g.cursor.isAcked o = false) : ¬ w.Passed home o := by
  rw [World.Passed, hlive]
  exact not_lt_of_ge (hwf.isLeast.2 hopen)

/-- The dead-letter pass of a record that is open. -/
theorem Inv.deadLetterIn (h : Inv home name w) (hlive : w.slot.live = some g)
    (faults : List (Option SinkFault)) {o : Nat} (attempt : Nat) {r : OwnedRecord}
    (reason : DeadLetterReason) (hopen : g.cursor.isAcked o = false) (hhead : o < w.head)
    (hr : r.offset = o) :
    Inv home name { w.withGroup (g.deadLetterIn home cfg name faults o attempt r reason w.sinks).2.1
      with sinks := (g.deadLetterIn home cfg name faults o attempt r reason w.sinks).2.2 } := by
  have hwf := (h.live g hlive).wf
  subst hr
  obtain ⟨hinv, hok, -⟩ := h.fanOut (deadLetterEntry cfg name attempt r reason) faults rfl
    (not_passed home hlive hwf hopen) hhead
  unfold WorkGroup.deadLetterIn
  have hoff : (deadLetterEntry cfg name attempt r reason).sourceOffset = r.offset := rfl
  rw [hoff] at hinv hok
  rcases hres : fanOutDeadLetter name r.offset (deadLetterEntry cfg name attempt r reason) w.sinks
    faults with ⟨_ | _, sinks⟩
  · rw [hres] at hinv
    simp only [withGroup_self hlive]
    exact hinv
  · rw [hres] at hinv hok
    obtain ⟨hcursor, hleases, -⟩ := g.deadLetterPast_spec home r.offset
    obtain ⟨hwf', hset⟩ := hwf.ack r.offset
    have hsub : g.cursor.acked ⊆ (g.deadLetterPast home r.offset).cursor.acked := by
      rw [hcursor]
      exact fun x hx => (hset x).mpr (.inl hx)
    refine Inv.prune
      (w := { w.withGroup (g.deadLetterPast home r.offset) with sinks := sinks }) ?_ rfl
    refine hinv.regroup_of_subset hlive (hcursor ▸ hwf') hsub (fun x hx => ?_)
      fun x _ hget => hleases ▸ hget
    rw [hcursor] at hx
    rcases (hset x).mp hx with hx | ⟨rfl, -⟩
    · exact .inl hx
    · exact .inr ⟨hhead, fun _ => hok rfl⟩

/-! ## Polls and settlements -/

/-- A record that is kept is not passed over. -/
theorem Kept.not_passes {o : Nat} (h : Kept cfg env g o) (hlog : Shows env) :
    ¬ Passes cfg env g o := by
  obtain ⟨r, hr, hwanted⟩ := h
  intro hpass
  cases hpass with
  | hole _ hread hle hlt => exact not_lt_of_ge (hlog.first _ _ hread o r hr hle) hlt
  | unwanted hr' why =>
    obtain rfl := Option.some.inj (Except.ok.inj (hr.read.symm.trans hr'.read))
    exact hwanted why

theorem Passes.below {o : Nat} (h : Passes cfg env g o) (hlog : Shows env) :
    o < env.flushed := by
  cases h with
  | hole _ hread _ hlt => exact hlt.trans (hlog.below _ _ hread)
  | unwanted hr _ => exact hr.offset ▸ hlog.below _ _ hr.read

/-- The group after a poll, before anything is dead-lettered. -/
theorem Inv.scanned (h : Inv home name w) (hlive : w.slot.live = some g) (hlog : Shows env)
    (hhead : w.head ≤ env.flushed) {e : PollEnd} (hpolls : Polls cfg env g e g')
    (hkept : ∀ o, w.Pending name o → Kept cfg env g o)
    (hreset : ForgetsNothing env g.cursor) :
    Inv home name { w.withGroup g' with head := env.flushed } := by
  have hold := h.live g hlive
  have hwidth := hlog.earliest_le_flushed.trans hlog.width
  have hleases : ∀ o, env.flushed ≤ o → g.leases.leases.get o = none →
      g'.leases.leases.get o = none := fun o ho hget => hpolls.no_lease ho hget
  obtain hadv | ⟨hbehind, hcursor⟩ := hpolls.advances hold.wf
  · refine (h.advance hhead).regroup_of_subset hlive hadv.wf hadv.mono (fun o ho => ?_) hleases
    refine (hadv.passes o ho).imp_right fun hp => ⟨Passes.below hp hlog, fun hspent => ?_⟩
    by_contra hno
    exact (hkept o ⟨hspent, hno⟩).not_passes hlog hp
  · have hacked := hreset hbehind
    have hlt {o : Nat} (ho : g.cursor.isAcked o = true) : o < env.earliest := by
      by_contra hle
      rw [hacked o (not_lt.mp hle)] at ho
      cases ho
    have hiff (o : Nat) : g'.cursor.isAcked o = true ↔ o < env.earliest :=
      hcursor ▸ isAcked_resume hwidth o
    have hwf : g'.cursor.Wf := hcursor ▸ resume_wf hwidth
    refine (h.advance hhead).regroup hlive hwf ?_ (fun c hc o ho => ?_) (fun o ho => .inr ⟨?_, ?_⟩)
      hleases
    · refine hold.wf.isLeast.2 (hacked _ ?_)
      rw [hcursor]
      exact le_rfl
    · exact (hiff o).mpr (hlt (hold.file_le c hc ho))
    · exact ((hiff o).mp ho).trans_le hlog.earliest_le_flushed
    · -- a spent record without its copies is still in the log
      intro hspent
      by_contra hno
      obtain ⟨r, hr, -⟩ := hkept o ⟨hspent, hno⟩
      exact absurd ((hiff o).mp ho) (not_lt_of_ge (hlog.earliest_le o r hr))

theorem spends_open {cfg' : EngineConfig} {e : PollEnd} {o : Nat}
    (hpolls : Polls cfg env g e g') (h : o ∈ spends cfg' g e g') :
    g'.cursor.isAcked o = false := by
  unfold spends at h
  split at h
  · obtain rfl := mem_singleton.mp h
    exact (hpolls.parked_open).1.unacked
  · split_ifs at h with hstop
    · obtain rfl := mem_singleton.mp h
      exact hstop.1
    · cases h
  · cases h

theorem Inv.acked (h : Inv home name w) (hlive : w.slot.live = some g) (now : Nat)
    (token : LeaseToken) (hsettled : ¬ w.Pending name token.offset) :
    Inv home name (w.withGroup (g.ackIn cfg now token).2) := by
  have hold := h.live g hlive
  obtain ⟨hwf, hsub, hnew, hleases⟩ := ackIn_acked cfg hold.wf now token
  refine h.regroup_of_subset hlive hwf hsub (fun o ho => ?_) fun o _ hget => hleases o hget
  refine (hnew o ho).imp_right ?_
  rintro ⟨rfl, hlease⟩
  refine ⟨?_, fun hspent => ?_⟩
  · by_contra hle
    exact hlease (hold.leases _ (not_lt.mp hle))
  · by_contra hno
    exact hsettled ⟨hspent, hno⟩

/-- The copies of a record that is not acknowledged yet. -/
theorem Inv.termFanOut (cfg : EngineConfig) (h : Inv home name w) (hlive : w.slot.live = some g)
    (hlog : Shows env) (hhead : w.head = env.flushed) (faults : List (Option SinkFault))
    (token : LeaseToken)
    (hopen : g.cursor.isAcked token.offset = false) :
    Inv home name { w with sinks := (g.termFanOut cfg env name faults token w.sinks).2 }
      ∧ (w.AllRecorded name token.offset →
        ∀ s ∈ (g.termFanOut cfg env name faults token w.sinks).2,
          Recorded name token.offset s) := by
  unfold WorkGroup.termFanOut
  split
  · split
    · rename_i attempt r _ hread
      split_ifs with hoff
      · rw [← hoff] at hopen ⊢
        have hbelow : r.offset < w.head := hhead ▸ hlog.below _ _ hread
        obtain ⟨hinv, -, hkeep⟩ :=
          h.fanOut (deadLetterEntry cfg name attempt r .rejected) faults rfl
          (not_passed home hlive (h.live g hlive).wf hopen) hbelow
        exact ⟨hinv, hkeep r.offset⟩
      · exact ⟨h, fun hrec => hrec⟩
    · exact ⟨h, fun hrec => hrec⟩
  · exact ⟨h, fun hrec => hrec⟩

theorem Inv.terminated (h : Inv home name w) (hlive : w.slot.live = some g) (hlog : Shows env)
    (hhead : w.head ≤ env.flushed) (faults : List (Option SinkFault)) (token : LeaseToken)
    (hsettled : ¬ w.Pending name token.offset) (hopen : g.cursor.isAcked token.offset = false) :
    Inv home name { w.withGroup (g.termInTargets cfg env name faults token w.sinks).2.1 with
      sinks := (g.termInTargets cfg env name faults token w.sinks).2.2, head := env.flushed } := by
  obtain ⟨hinv, hrec⟩ := (h.advance hhead).termFanOut cfg hlive hlog rfl faults token hopen
  unfold termInTargets
  generalize g.termFanOut cfg env name faults token w.sinks = written at hinv hrec
  simp only
  have hsettle : Inv home name (World.withGroup
      { w with head := env.flushed, sinks := written.2 } (g.termIn cfg env written.1 token).2) := by
    rcases g.termIn_cases cfg env written.1 token with heq | ⟨heq, -⟩
    · rw [heq]
      refine hinv.acked hlive env.now token fun hpending => hsettled ⟨hpending.1, fun hall => ?_⟩
      exact hpending.2 (hrec hall)
    · rw [heq, withGroup_self (by exact hlive)]
      exact hinv
  split
  · exact hsettle.prune rfl
  · exact hsettle

/-! ## The life of the group -/

/-- A checkpoint of the live cursor. -/
theorem CursorInv.snapshot {c : AckCursor} (h : CursorInv name w c) :
    CursorInv name w (snapshotPayload c) := by
  obtain ⟨hwf, hsub⟩ := snapshotPayload_acked h.wf
  exact ⟨hwf, fun o ho => h.below o (hsub ho), fun o hspent ho => h.recorded o hspent (hsub ho)⟩

/-- A cursor at offset zero covers nothing. -/
theorem CursorInv.new (name : Name) (w : World) : CursorInv name w new := by
  have hnone (o : Nat) : ¬ AckCursor.new.isAcked o = true := fun ho =>
    Nat.not_lt_zero o ((isAcked_resume (Nat.zero_le _) o).mp ho)
  exact ⟨resume_wf (Nat.zero_le _), fun o ho => absurd ho (hnone o),
    fun o _ ho => absurd ho (hnone o)⟩

theorem Inv.checkpoint (h : Inv home name w) :
    Inv home name { w with slot := w.slot.checkpointGroup } := by
  cases hlive : w.slot.live with
  | none => rwa [checkpointGroup_of_none hlive]
  | some g =>
    obtain ⟨n, heq⟩ := checkpointGroup_live hlive
    have hold := h.live g hlive
    have hfile : ∀ c, w.slot.checkpointGroup.cursorFile = some c →
        CursorInv name w c ∧ c.acked ⊆ g.cursor.acked := fun c hc => by
      rcases w.slot.checkpointGroup_cursorFile with hsame | ⟨g₁, hg₁, hnew⟩
      · exact ⟨h.file c (hsame ▸ hc), hold.file_le c (hsame ▸ hc)⟩
      · obtain rfl := Option.some.inj (hlive.symm.trans hg₁)
        obtain rfl := Option.some.inj (hnew.symm.trans hc)
        exact ⟨hold.toCursorInv.snapshot, (snapshotPayload_acked hold.wf).2⟩
    refine ⟨fun s hs => (h.sinks s hs).mono fun o ho => ?_, h.below, fun g₁ hg₁ => ?_,
      fun c hc => (hfile c hc).1.mono le_rfl rfl fun _ hrec => hrec⟩
    · rw [World.Passed, hlive] at ho
      rw [World.Passed, heq]
      exact ho
    · rw [heq] at hg₁
      obtain rfl := Option.some.inj hg₁
      exact ⟨hold.toCursorInv.mono le_rfl rfl fun _ hrec => hrec, hold.leases,
        fun c hc => (hfile c hc).2⟩

theorem Inv.evictIdle (h : Inv .default name w) (hlive : w.slot.live = some g)
    {flushed now window : Nat} (ghost : GhostPolicy) (hhead : w.head ≤ flushed)
    (hidle : isEvictable name g flushed now window = true) :
    Inv .default name { w with
      slot := w.slot.evictGroup ghost, sinks := w.sinks.map (·.forgetGroup name)
      head := flushed } := by
  obtain ⟨hgone, hfile, hcommitted⟩ := evictGroup_idle hlive ghost hidle
  have hold := (h.live g hlive).toCursorInv.snapshot
  refine ⟨fun s hs => ?_, fun s hs e he hg => ?_, fun g₁ hg₁ => ?_, fun c hc => ?_⟩
  · obtain ⟨s₀, hs₀, rfl⟩ := mem_map.mp hs
    refine (h.sinks s₀ hs₀).forgetGroup fun e he hg => ?_
    rw [World.Passed, hgone]
    refine ⟨rfl, _, hfile, ?_⟩
    rw [snapshotPayload_committed, hcommitted]
    exact (h.below s₀ hs₀ e he hg).trans_le hhead
  · obtain ⟨s₀, hs₀, rfl⟩ := mem_map.mp hs
    exact (h.below s₀ hs₀ e he hg).trans_le hhead
  · rw [hgone] at hg₁
    cases hg₁
  · obtain rfl := Option.some.inj (hfile.symm.trans hc)
    refine ⟨hold.wf, fun o ho => (hold.below o ho).trans_le hhead, fun o hspent ho s hs => ?_⟩
    obtain ⟨s₀, hs₀, rfl⟩ := mem_map.mp hs
    exact hold.recorded o hspent ho s₀ hs₀

/-- The group as its files give it back. -/
theorem Inv.recovered (cfg : EngineConfig) (h : Inv home name w) (hhead : w.head = env.flushed) :
    GroupInv name w (w.slot.recovered cfg env)
      ∧ (w.slot.recovered cfg env).cursor = w.slot.cursorFile.getD new := by
  have hcursor := recovered_cursor cfg env w.slot fun c hc =>
    ⟨(h.file c hc).wf, fun o ho => hhead ▸ (h.file c hc).below o ho⟩
  have hfile : CursorInv name w (w.slot.cursorFile.getD new)
      ∧ ∀ c, w.slot.cursorFile = some c →
        c.acked ⊆ (w.slot.cursorFile.getD new).acked := by
    cases hc : w.slot.cursorFile with
    | none => exact ⟨.new name w, nofun⟩
    | some c =>
      refine ⟨h.file c hc, fun c' hc' => ?_⟩
      obtain rfl := Option.some.inj hc'
      exact subset_rfl
  exact ⟨⟨hcursor ▸ hfile.1, fun o _ => recovered_leases cfg env w.slot o,
    hcursor ▸ hfile.2⟩, hcursor⟩

/-- A group that is not live comes back from its files. -/
theorem Inv.restore (cfg : EngineConfig) (h : Inv home name w) (hidle : w.slot.live = none)
    (hhead : w.head = env.flushed) {slot : GroupSlot}
    (hlive : slot.live = some (w.slot.recovered cfg env))
    (hfile : slot.cursorFile = w.slot.cursorFile) : Inv home name { w with slot := slot } := by
  obtain ⟨hgroup, hcursor⟩ := h.recovered cfg hhead
  refine ⟨fun s hs => (h.sinks s hs).mono fun o ho => ?_, h.below, fun g₁ hg₁ => ?_,
    fun c hc => (h.file c (hfile ▸ hc)).mono le_rfl rfl fun _ hrec => hrec⟩
  · rw [World.Passed, hidle] at ho
    obtain ⟨-, c, hc, hlt⟩ := ho
    rw [World.Passed, hlive]
    simp only [hcursor, hc, Option.getD_some]
    exact hlt
  · obtain rfl := Option.some.inj (hlive.symm.trans hg₁)
    exact ⟨hgroup.toCursorInv.mono le_rfl rfl fun _ hrec => hrec, hgroup.leases,
      fun c hc => hgroup.file_le c (hfile ▸ hc)⟩

theorem Inv.ensure (cfg : EngineConfig) (h : Inv home name w) (hhead : w.head ≤ env.flushed)
    (hephemeral : w.slot.ephemeral = none) :
    Inv home name { w with slot := w.slot.ensureGroup cfg env, head := env.flushed } := by
  cases hlive : w.slot.live with
  | some g =>
    rw [ensureGroup, hlive]
    exact h.advance hhead
  | none =>
    refine (h.advance hhead).restore cfg hlive rfl ?_ ?_
    all_goals rw [ensureGroup, hlive, hephemeral]

theorem Inv.reopenStream (cfg : EngineConfig) (h : Inv home name w) (hlive : w.slot.live = none)
    (hhead : w.head ≤ env.flushed) :
    Inv home name { w with slot := w.slot.reopenNamedStream cfg env, head := env.flushed } := by
  unfold reopenNamedStream
  split
  · exact h.advance hhead
  · exact (h.advance hhead).restore cfg hlive rfl rfl rfl

/-- The targets are opened again while the group is not live. -/
theorem Inv.closed (h : Inv home name w) {found : DlqSink → DlqSink.Found}
    (hfound : ∀ s ∈ w.sinks, Covered s (found s)) (slot : GroupSlot)
    (hlive : slot.live = none) (hfile : ∀ c, slot.cursorFile = some c → CursorInv name w c) :
    Inv home name { w with slot := slot, sinks := w.sinks.map fun s => s.openAt (found s) } := by
  have hrec (o : Nat) (hall : w.AllRecorded name o) :
      ∀ s ∈ w.sinks.map fun s => s.openAt (found s), Recorded name o s := fun s hs => by
    obtain ⟨s₀, hs₀, rfl⟩ := mem_map.mp hs
    exact ((h.sinks s₀ hs₀).openAt (fun _ => False) (hfound s₀ hs₀)).2.1 o (hall s₀ hs₀)
  refine ⟨fun s hs => ?_, fun s hs e he hg => ?_, fun g₁ hg₁ => ?_,
    fun c hc => (hfile c hc).mono le_rfl rfl hrec⟩
  · obtain ⟨s₀, hs₀, rfl⟩ := mem_map.mp hs
    exact ((h.sinks s₀ hs₀).openAt _ (hfound s₀ hs₀)).1
  · obtain ⟨s₀, hs₀, rfl⟩ := mem_map.mp hs
    exact h.below s₀ hs₀ e
      (((h.sinks s₀ hs₀).openAt (fun _ => False) (hfound s₀ hs₀)).2.2 e he) hg
  · have : slot.live = some g₁ := hg₁
    rw [hlive] at this
    cases this

theorem Inv.evictStream (h : Inv home name w) {found : DlqSink → DlqSink.Found}
    (hfound : ∀ s ∈ w.sinks, Covered s (found s)) :
    Inv home name { w with
      slot := w.slot.evictNamedStream, sinks := w.sinks.map fun s => s.openAt (found s) } := by
  refine h.closed hfound _ ?_ fun c hc => ?_
  · unfold evictNamedStream
    cases w.slot.live <;> rfl
  · have hwritten : w.slot.evictNamedStream.cursorFile = w.slot.cursorFile
        ∨ ∃ g, w.slot.live = some g
          ∧ w.slot.evictNamedStream.cursorFile = some (snapshotPayload g.cursor) := by
      have hwrite := w.slot.writeGroupCheckpoint_cursorFile
      unfold evictNamedStream
      cases hlive : w.slot.live with
      | none => exact .inl rfl
      | some g =>
        simp only [writeGroupAttempts_cursorFile]
        rw [hlive] at hwrite
        exact hwrite
    rcases hwritten with hsame | ⟨g, hg, hnew⟩
    · exact h.file c (hsame ▸ hc)
    · obtain rfl := Option.some.inj (hnew.symm.trans hc)
      exact (h.live g hg).toCursorInv.snapshot

theorem Inv.restart (cfg : EngineConfig) (h : Inv home name w) {found : DlqSink → DlqSink.Found}
    (hfound : ∀ s ∈ w.sinks, Covered s (found s)) (hhead : w.head ≤ env.flushed) :
    Inv home name { w with
      slot := w.slot.restart cfg env
      sinks := w.sinks.map fun s => s.openAt (found s)
      head := env.flushed } :=
  Inv.reopenStream cfg (h.closed hfound
    { w.slot with live := none, lastCheckpointed := none, ephemeral := none } rfl h.file) rfl hhead

theorem Inv.create (h : Inv home name w) (lease : LeaseConfig) (now : Nat)
    (hfile : w.slot.cursorFile = none) (hnone : ∀ s ∈ w.sinks, ∀ e ∈ s.log, e.group ≠ name) :
    Inv home name (w.withGroup (new lease now)) := by
  refine ⟨fun s hs => ?_, h.below, fun g₁ hg₁ => ?_, fun c hc => ?_⟩
  · refine ⟨(h.sinks s hs).once, (h.sinks s hs).flushed_le, (h.sinks s hs).thawed,
      (h.sinks s hs).sound, fun e he hg => absurd hg (hnone s hs e (mem_of_mem_take he))⟩
  · obtain rfl := Option.some.inj hg₁
    exact ⟨.new name _, fun _ _ => rfl, fun c hc => nomatch hfile.symm.trans hc⟩
  · exact nomatch hfile.symm.trans hc

/-- Before anything happened. -/
theorem Inv.start (cfg : EngineConfig) (budget : RetryBudget) (head : Nat) :
    Inv home name (World.start cfg budget head) := by
  refine ⟨fun s hs => ?_, fun s hs e he => ?_, nofun, nofun⟩
  · rw [eq_of_mem_replicate hs]
    exact sinkInv_empty _ _
  · rw [eq_of_mem_replicate hs] at he
    cases he

end Lemmas

/-! ## Whole runs -/

section Runs

variable [Checksums] {home : Home} {cfg : EngineConfig} {name : Name} {w w' : World}

theorem Inv.polled {g : WorkGroup} (h : Inv home name w) (env : PollEnv)
    (member : Option MemberId) (faults : List (Option SinkFault)) (hlive : w.slot.live = some g)
    (hlog : Shows env) (hhead : w.head ≤ env.flushed)
    (hkept : ∀ o, w.Pending name o → Kept (home.config cfg) env g o)
    (hreset : ForgetsNothing env g.cursor) :
    Inv home name (w.polled home cfg name env faults g
      (g.pollInStream home cfg env member w.budget)) := by
  have hpolls := pollInStream_polls home cfg env member w.budget g
  revert hpolls
  generalize g.pollInStream home cfg env member w.budget = res
  obtain ⟨e, budget, g'⟩ := res
  intro hpolls
  have hscan := (h.scanned hlive hlog hhead hpolls hkept hreset).setBudget budget
  have hspend := hscan.spend (g := g') rfl (spends cfg g e g') fun o => spends_open hpolls
  cases e with
  | deadLetter o n r reason =>
    obtain ⟨hopen, hr⟩ := hpolls.parked_open
    exact hspend.deadLetterIn rfl faults n reason hopen.unacked hopen.below hr.offset
  | _ => exact hspend

theorem Step.inv (h : Step home cfg name w w') (hinv : Inv home name w) : Inv home name w' := by
  cases h with
  | poll env member faults hlive hlog hhead hkept hreset =>
    exact hinv.polled env member faults hlive hlog hhead hkept hreset
  | ack now token hlive hsettled => exact hinv.acked hlive now token hsettled
  | term env faults token hlive hlog hhead hsettled hopen =>
    exact hinv.terminated hlive hlog hhead faults token hsettled hopen
  | @nack g now token delayMs hlive =>
    obtain ⟨d, heq, -⟩ := g.nackIn_eq cfg now token delayMs
    rw [heq]
    exact hinv.regroup_of_subset hlive (hinv.live _ hlive).wf subset_rfl (fun _ ho => .inl ho)
      fun _ _ hget => (LeaseTable.nack_relet ..).settles.free _ hget
  | @progress g now token hlive =>
    rw [(g.progressIn_eq now token).1]
    exact hinv.regroup_of_subset hlive (hinv.live _ hlive).wf subset_rfl (fun _ ho => .inl ho)
      fun _ _ hget => (LeaseTable.extend_relet ..).settles.free _ hget
  | mode g' hlive hcursor hleases =>
    exact hinv.regroup_of_subset hlive (hcursor ▸ (hinv.live _ hlive).wf) (hcursor ▸ subset_rfl)
      (fun _ ho => .inl (hcursor ▸ ho)) fun o _ hget => hleases o hget
  | checkpoint => exact hinv.checkpoint
  | evictIdle flushed now window ghost hhome hlive hhead hidle =>
    subst hhome
    exact hinv.evictIdle hlive ghost hhead hidle
  | ensure env _ hhead _ hephemeral => exact hinv.ensure cfg hhead hephemeral
  | evictStream found _ hfound => exact hinv.evictStream hfound
  | reopenStream env _ hlive hhead _ => exact hinv.reopenStream cfg hlive hhead
  | restart env found hhead _ hfound => exact hinv.restart cfg hfound hhead
  | create now _ hfile hnone => exact hinv.create cfg.lease now hfile hnone

theorem Reach.inv (h : Reach home cfg name w w') (hinv : Inv home name w) : Inv home name w' := by
  induction h with
  | refl => exact hinv
  | tail _ hstep ih => exact hstep.inv ih

/-- The group has passed a record, as far as it knows or its checkpoint says. -/
def World.Covers (w : World) (o : Nat) : Prop :=
  (∃ g, w.slot.live = some g ∧ g.cursor.isAcked o = true)
    ∨ ∃ c, w.slot.cursorFile = some c ∧ c.isAcked o = true

end Runs

/-! ## One record, one target -/

section OneRecord

local instance : Checksums := ⟨castagnoli, fun _ => 0⟩

/-- One delivery, a lease of ten nanoseconds, one target. -/
def oneDelivery : EngineConfig := .leaseOfTen 1 5

def poison : OwnedRecord := ⟨0, 0, 0, 0, [], [], [7], [], []⟩

/-- A log with one record. -/
def poisonEnv (now : Nat) : PollEnv :=
  ⟨0, 1, fun o => .ok (if o = 0 then some poison else none), now, 0⟩

/-- The group has been created by its first poll. -/
def created (w : World) : World :=
  { w with slot := w.slot.ensureGroup oneDelivery (poisonEnv 0), head := 1 }

/-- A poll, with the faults of the target. -/
def World.pollAt (name : Name) (faults : List (Option SinkFault)) (now : Nat) (w : World) : World :=
  match w.slot.live with
  | none => w
  | some g => w.polled .default oneDelivery name (poisonEnv now) faults g
      (g.pollInStream .default oneDelivery (poisonEnv now) none w.budget)

/-- A restart, of the process alone or after a power loss. -/
def World.restarted (found : DlqSink.Found) (now : Nat) (w : World) : World :=
  { w with
    slot := w.slot.restart oneDelivery (poisonEnv now)
    sinks := w.sinks.map fun s => s.openAt found
    head := 1 }

def begun : World := created (World.start oneDelivery ⟨0, 0, 0, 0, 0, none⟩ 0)

theorem shows_poisonEnv (now : Nat) : Shows (poisonEnv now) := by
  have hread {o : Nat} {r : OwnedRecord} (h : (poisonEnv now).read o = .ok (some r)) :
      o = 0 ∧ r = poison := by
    simp only [poisonEnv, Except.ok.injEq] at h
    split at h
    · exact ⟨by assumption, (Option.some.inj h).symm⟩
    · cases h
  refine ⟨fun o r h => ?_, fun o r h o' r' h' hle => ?_, fun _ _ _ => Nat.zero_le _, Nat.zero_le _,
    show 1 ≤ u64Max by decide⟩
  · rw [(hread h).2]
    exact Nat.one_pos
  · rw [(hread h).2]
    exact Nat.zero_le _

theorem pollAt_step (name : Name) (faults : List (Option SinkFault)) (now : Nat) {w : World}
    (hhead : w.head ≤ 1) (hfilter : w.slot.live.map (·.filter) = some none)
    (hspent : ∀ o ∈ w.spent, o = 0) :
    Step .default oneDelivery name w (w.pollAt name faults now) := by
  cases hlive : w.slot.live with
  | none =>
    rw [hlive] at hfilter
    cases hfilter
  | some g =>
    have hpattern : g.pattern = none := by
      rw [hlive] at hfilter
      rw [pattern, show g.filter = none from Option.some.inj hfilter]
      rfl
    rw [World.pollAt, hlive]
    refine .poll (poisonEnv now) none faults hlive (shows_poisonEnv now) hhead (fun o hp => ?_)
      fun h => absurd h (Nat.not_lt_zero _)
    -- the record is there, has no time to live, and there is no filter
    obtain rfl := hspent o hp.1
    refine ⟨poison, ⟨rfl, rfl⟩, ?_⟩
    rintro (⟨hexpired, -⟩ | hout)
    · cases hexpired
    · rw [hpattern] at hout
      cases hout

/-- The record is out. -/
def delivered : World := begun.pollAt [103] [] 0

end OneRecord

end DeadLetters

end IronBus
