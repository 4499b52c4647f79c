import IronBus.Native.StreamKinds
import IronBus.Spec.SharedWalCorrect

/-!
# What a consumer sees is durable

For every kind of stream at the sync level. Two places break this. The tick over several logs
writes a log out and moves its visible head before its barrier, and a barrier that fails leaves the
head there. And opening a log shows everything it finds, covered or not.

Key results:
- `Safe.poll`, `Safe.reopen`: a poll delivers only records a successful barrier has covered, and an
  opening finds them
- `delivered_stay`: so a delivered record survives every crash of a run
-/

namespace IronBus

open HeadLog List SharedWal StreamEngine

/-! ## One log -/

namespace HeadLog

variable {ρ : Type}

/-- The records a successful barrier has covered. -/
def coveredRecords (l : HeadLog ρ) : List ρ := l.log.records.take l.log.durable

/-- A log that shows only what barriers have covered. -/
structure Safe (l : HeadLog ρ) : Prop where
  wf : l.Wf
  covered : l.Covered

variable {l l' : HeadLog ρ}

theorem fresh_safe : (fresh : HeadLog ρ).Safe := ⟨fresh_wf, le_rfl⟩

/-- What a call or a restart does to a log: it stays safe, and covered records stay. -/
structure Advances (l l' : HeadLog ρ) : Prop where
  safe : l'.Safe
  covered : l.coveredRecords <+: l'.coveredRecords

theorem Moves.coveredRecords (h : l.Moves l') :
    l.coveredRecords <+: l'.coveredRecords := by
  obtain ⟨t, ht⟩ := h.records
  have hsame : (l.log.records ++ t).take l.log.durable = l.coveredRecords :=
    take_append_of_le_length l.log.durable_le
  rw [← hsame, HeadLog.coveredRecords, ← ht]
  exact take_prefix_take_left h.durable

theorem Safe.advances (h : l.Safe) (hmoves : l.SafeMoves l') : l.Advances l' :=
  ⟨⟨hmoves.wf h.wf, hmoves.covered h.covered⟩, hmoves.coveredRecords⟩

theorem Safe.refl (h : l.Safe) : l.Advances l := ⟨h, prefix_rfl⟩

/-- Opening finds only records that barriers have covered, its own included. -/
def OnlyCovered (l : HeadLog ρ) (io : CrashIo) : Prop :=
  (l.recovered io).records.length ≤ (l.recovered io).durable

theorem Safe.reopen (h : l.Safe) {io : CrashIo} (hio : l.OnlyCovered io) :
    l.Advances (l.reopen io) := by
  refine ⟨⟨reopen_wf h.wf (h.covered.trans (le_max_left _ _)), hio⟩, ?_⟩
  obtain ⟨hfront, -⟩ := l.recovered_records io
  have hkept : l.coveredRecords <+: (l.recovered io).records := by
    refine List.IsPrefix.trans ?_ hfront
    exact take_prefix_take_left (le_max_left _ _)
  have hall : (l.reopen io).coveredRecords = (l.recovered io).records :=
    take_of_length_le hio
  rw [hall]
  exact hkept

/-- A visible record is a covered one. -/
theorem Safe.visibleAt (h : l.Safe) {offset : Nat} {r : ρ} (hr : l.visibleAt offset = some r) :
    l.coveredRecords[offset]? = some r := by
  unfold HeadLog.visibleAt at hr
  split at hr
  · next hrange =>
    rw [coveredRecords, getElem?_take_of_lt (hrange.2.trans_le h.covered)]
    exact hr
  · cases hr

theorem Safe.tick (h : l.Safe) {io : SyncIo} (hio : l.TickCalm io) :
    l.Advances (l.tick io).2 := h.advances ⟨l.tick_moves io, fun hcov => tick_covered hcov hio⟩

theorem Safe.append (h : l.Safe) (io : WriteIo) (r : ρ) :
    l.Advances (l.append io r).2 := h.advances (l.append_moves io r)

theorem Advances.trans {l'' : HeadLog ρ} (h : l.Advances l') (h' : l'.Advances l'') :
    l.Advances l'' := ⟨h'.safe, h.covered.trans h'.covered⟩

end HeadLog

/-! ## Several logs -/

section Logs

variable {κ β γ : Type} [DecidableEq κ]

theorem lookup_map_values (logs : List (κ × β)) (f : κ → β → γ) (k : κ) :
    (logs.map fun e => (e.1, f e.1 e.2)).lookup k = (logs.lookup k).map (f k) := by
  induction logs with
  | nil => rfl
  | cons e logs ih =>
    rw [map_cons, lookup_cons, lookup_cons]
    cases hk : k == e.1 with
    | true =>
      cases eq_of_beq hk
      rfl
    | false => exact ih

theorem lookup_setLog (logs : List (κ × β)) (k k' : κ) (l : β) :
    (setLog logs k l).lookup k' = (logs.lookup k').map fun old => if k' = k then l else old :=
  lookup_map_values logs (fun k' old => if k' = k then l else old) k'

end Logs

namespace StreamEngine

variable {ρ : Type}

/-- The log a poll source reads, the shared log apart. -/
def logOf (e : StreamEngine ρ) : PollSource → Option (HeadLog ρ)
  | .default => some e.log
  | .named id => e.streams.lookup id
  | .partition id index => (e.partitioned.lookup id).bind fun partitions => partitions[index]?
  | .shared _ => none

/-- What barriers have covered of a poll source. -/
def covered (e : StreamEngine ρ) : PollSource → List ρ
  | .shared id =>
    (e.sharedWal.map fun wal => streamSeq wal.log.coveredRecords id).getD []
  | source => ((e.logOf source).map coveredRecords).getD []

/-- What a call or a restart does to the engine's own logs. -/
structure Carries (e e' : StreamEngine ρ) : Prop where
  keeps : ∀ source l, e.logOf source = some l → ∃ l', e'.logOf source = some l' ∧ l.Advances l'
  opens : ∀ source l', e.logOf source = none → e'.logOf source = some l' → l'.Safe

/-- Every log is safe. -/
def LogsSafe (e : StreamEngine ρ) : Prop := ∀ source l, e.logOf source = some l → l.Safe

variable {e e' : StreamEngine ρ} {log : HeadLog ρ} {id : StreamId} {wal : SharedWal ρ}
  {offset : Nat} {d : Delivered ρ} {io : CrashIo}

theorem Carries.logsSafe (h : Carries e e') : LogsSafe e' := by
  intro source l' hl'
  rcases hl : e.logOf source with _ | l
  · exact h.opens source l' hl hl'
  · obtain ⟨l'', hl'', hadv⟩ := h.keeps source l hl
    rw [hl'] at hl''
    cases hl''
    exact hadv.safe

/-- A call that leaves each log as it was, moves it on, or opens it safely. -/
theorem LogsSafe.carries (h : LogsSafe e)
    (hlogs : ∀ source, e'.logOf source = e.logOf source
      ∨ (∀ l, e.logOf source = some l → ∃ l', e'.logOf source = some l' ∧ l.Advances l')
        ∧ ∀ l', e.logOf source = none → e'.logOf source = some l' → l'.Safe) : Carries e e' where
  keeps source l hl := by
    obtain heq | ⟨hkeeps, -⟩ := hlogs source
    · exact ⟨l, heq.trans hl, (h source l hl).refl⟩
    · exact hkeeps l hl
  opens source l' hnone hl' := by
    obtain heq | ⟨-, hopens⟩ := hlogs source
    · cases hnone.symm.trans (heq.symm.trans hl')
    · exact hopens l' hnone hl'

/-- A call that touches the default log only. -/
theorem LogsSafe.carries_default (h : LogsSafe e) (hlog : e.log.Advances log) (flusher : Flusher) :
    Carries e { e with log := log, flusher := flusher } :=
  h.carries fun
    | .default => .inr ⟨fun l hl => by cases hl; exact ⟨log, rfl, hlog⟩, nofun⟩
    | .named _ | .partition .. | .shared _ => .inl rfl

/-- A call that touches the named streams only, each by itself. -/
theorem LogsSafe.carries_named (h : LogsSafe e) {streams : List (StreamId × HeadLog ρ)}
    (hkeeps : ∀ id l, e.streams.lookup id = some l →
      ∃ l', streams.lookup id = some l' ∧ l.Advances l')
    (hopens : ∀ id l', e.streams.lookup id = none → streams.lookup id = some l' → l'.Safe) :
    Carries e { e with streams := streams } :=
  h.carries fun
    | .named id => .inr ⟨hkeeps id, hopens id⟩
    | .default | .partition .. | .shared _ => .inl rfl

/-- A call that touches the partitioned streams only, each partition by itself. -/
theorem LogsSafe.carries_partitioned (h : LogsSafe e)
    {partitioned : List (StreamId × List (HeadLog ρ))}
    (hkeeps : ∀ id index l, e.logOf (.partition id index) = some l →
      ∃ l', ((partitioned.lookup id).bind fun ps => ps[index]?) = some l' ∧ l.Advances l')
    (hopens : ∀ id index l', e.logOf (.partition id index) = none →
      ((partitioned.lookup id).bind fun ps => ps[index]?) = some l' → l'.Safe) :
    Carries e { e with partitioned := partitioned } :=
  h.carries fun
    | .partition id index => .inr ⟨hkeeps id index, hopens id index⟩
    | .default | .named _ | .shared _ => .inl rfl

/-! ## Runs -/

/-- The named logs as the tick of a produce finds them. -/
def tickedStreams (e : StreamEngine ρ) (io : WriteIo) (id : StreamId) (r : ρ) :
    List (StreamId × HeadLog ρ) :=
  let e := e.ensureNamedStreamOpen id
  match e.streams.lookup id with
  | none => []
  | some log => setLog e.streams id (log.append io r).2

/-- The partitions as the tick of a produce finds them. -/
def tickedPartitions (e : StreamEngine ρ) (io : WriteIo) (id : StreamId) (index : Nat) (r : ρ) :
    List (HeadLog ρ) :=
  match e.partitioned.lookup id with
  | none => []
  | some partitions =>
    match partitions[index]? with
    | none => []
    | some log => partitions.set index (log.append io r).2

/-- The lane a priority stands for. -/
def laneOf (e : StreamEngine ρ) (id : StreamId) (priority : Nat) : Nat :=
  min priority (((e.partitioned.lookup id).map List.length).getD 0 - 1)

/-- The engine and everything its polls have delivered. -/
structure World (ρ : Type) where
  engine : StreamEngine ρ
  delivered : List (Delivered ρ)

def World.fresh (shared : Bool) : World ρ := ⟨StreamEngine.fresh shared, []⟩

/-- One call, or a crash and the restart after it. In no tick does a barrier fail after its log was
written out, and no log is opened with more than barriers have covered. -/
inductive Step : World ρ → World ρ → Prop
  | appendNoSync {s : World ρ} (io : WriteIo) (r : ρ) :
      Step s { s with engine := (s.engine.appendNoSync io r).2 }
  | commitInline {s : World ρ} (io : SyncIo) :
      Step s { s with engine := (s.engine.commitInline io).2 }
  | maybeIssue {s : World ρ} (io : SyncIo) : Step s { s with engine := s.engine.maybeIssue io }
  | barrierReturns {s : World ρ} (ok : Bool) :
      Step s { s with engine := s.engine.barrierReturns ok }
  | onCompletion {s : World ρ} : Step s { s with engine := s.engine.onCompletion }
  | produceInStream {s : World ρ} {io : WriteIo} {tick : StreamId → SyncIo} {id : StreamId} {r : ρ}
      (hcalm : ∀ k l, (s.engine.tickedStreams io id r).lookup k = some l → l.TickCalm (tick k)) :
      Step s { s with engine := (s.engine.produceInStream io tick id r).2 }
  | evictNamedStream {s : World ρ} (io : SyncIo) (id : StreamId) :
      Step s { s with engine := (s.engine.evictNamedStream io id).2 }
  | declarePartitioned {s : World ρ} (id : StreamId) (count : Nat) :
      Step s { s with engine := s.engine.declarePartitioned id count }
  | producePartitioned {s : World ρ} {io : WriteIo} {tick : Nat → SyncIo} {id : StreamId}
      {routed : Nat} {r : ρ}
      (hcalm : ∀ (i : Nat) (l : HeadLog ρ),
        (s.engine.tickedPartitions io id routed r)[i]? = some l → l.TickCalm (tick i)) :
      Step s { s with engine := (s.engine.producePartitioned io tick id routed r).2 }
  | producePriority {s : World ρ} {io : WriteIo} {tick : Nat → SyncIo} {id : StreamId}
      {priority : Nat} {r : ρ}
      (hcalm : ∀ (i : Nat) (l : HeadLog ρ),
        (s.engine.tickedPartitions io id (s.engine.laneOf id priority) r)[i]? = some l →
          l.TickCalm (tick i)) :
      Step s { s with engine := (s.engine.producePriority io tick id priority r).2 }
  | produceInSharedStream {s : World ρ} (io : WriteIo) (sync : SyncIo) (id : StreamId) (r : ρ) :
      Step s { s with engine := (s.engine.produceInSharedStream io sync id r).2 }
  | poll {s : World ρ} {offset : Nat} {d : Delivered ρ} (h : s.engine.poll offset = some d) :
      Step s { s with delivered := s.delivered ++ [d] }
  | pollNamed {s : World ρ} {id : StreamId} {offset : Nat} {d : Delivered ρ}
      (h : s.engine.pollNamed id offset = some d) :
      Step s { s with delivered := s.delivered ++ [d] }
  | pollPartition {s : World ρ} {id : StreamId} {index offset : Nat} {d : Delivered ρ}
      (h : s.engine.pollPartition id index offset = some d) :
      Step s { s with delivered := s.delivered ++ [d] }
  | pollPriority {s : World ρ} {id : StreamId} {pick : Nat → Option Nat} {d : Delivered ρ}
      (h : s.engine.pollPriority id pick = some d) :
      Step s { s with delivered := s.delivered ++ [d] }
  | reopen {s : World ρ} {io : CrashIo} {e : StreamEngine ρ} (h : s.engine.reopen io = some e)
      (hfound : ∀ wal, s.engine.sharedWal = some wal → io.found ∈ wal.checkpoint.contents)
      (hdefault : s.engine.log.OnlyCovered io.default)
      (hnamed : ∀ id l, s.engine.logOf (.named id) = some l → l.OnlyCovered (io.named id))
      (hpartition : ∀ id i l, s.engine.logOf (.partition id i) = some l →
        l.OnlyCovered (io.partition id i))
      (hshared : ∀ wal, s.engine.sharedWal = some wal → wal.log.OnlyCovered io.shared) :
      Step s { s with engine := e }

/-- The states of a run. -/
abbrev Reach : World ρ → World ρ → Prop := Relation.ReflTransGen Step

/-- A barrier under way covers records of the log; one that succeeded has covered them. -/
def FlusherOk (e : StreamEngine ρ) : Prop :=
  match e.flusher with
  | .idle => True
  | .inFlight target => target ≤ e.log.nextOffset
  | .returned target ok => ok = true → target ≤ e.log.log.durable

/-- The shared log is in order and shows only what barriers have covered. -/
def SharedSafe (e : StreamEngine ρ) : Prop :=
  ∀ wal, e.sharedWal = some wal → Inv ⟨wal, []⟩ ∧ wal.log.Covered

/-- What holds of the engine between calls. -/
structure Safe (e : StreamEngine ρ) : Prop where
  logs : LogsSafe e
  flusher : FlusherOk e
  shared : SharedSafe e

structure Inv (s : World ρ) : Prop where
  safe : Safe s.engine
  delivered : ∀ d ∈ s.delivered, (s.engine.covered d.source)[d.offset]? = some d.record

/-- A call keeps the engine safe and what barriers have covered. -/
structure Keeps (e e' : StreamEngine ρ) : Prop where
  safe : Safe e'
  covered : ∀ source, e.covered source <+: e'.covered source

variable {s : World ρ}

theorem FlusherOk.of_moves (h : FlusherOk e) (hmoves : e.log.Moves log) :
    FlusherOk { e with log := log } := by
  unfold FlusherOk at h ⊢
  dsimp only
  split
  · trivial
  · next heq =>
    rw [heq] at h
    exact h.trans hmoves.nextOffset_le
  · next heq =>
    rw [heq] at h
    exact fun hok => (h hok).trans hmoves.durable

theorem Carries.covered (h : Carries e e') {source : PollSource}
    (hsource : ∀ id, source ≠ .shared id) : e.covered source <+: e'.covered source := by
  have hlog : ((e.logOf source).map coveredRecords).getD [] <+:
      ((e'.logOf source).map coveredRecords).getD [] := by
    rcases hl : e.logOf source with _ | l
    · exact nil_prefix
    · obtain ⟨l', hl', hadv⟩ := h.keeps source l hl
      rw [hl']
      exact hadv.covered
  cases source with
  | default => exact hlog
  | named id => exact hlog
  | partition id index => exact hlog
  | shared id => exact absurd rfl (hsource id)

/-- A call that leaves the shared log alone. -/
theorem Carries.keeps_of (h : Carries e e') (hflusher : FlusherOk e') (hshared : SharedSafe e)
    (hsame : e'.sharedWal = e.sharedWal) : Keeps e e' where
  safe := ⟨h.logsSafe, hflusher, fun wal hwal => hshared wal (hsame.symm.trans hwal)⟩
  covered source := by
    cases source with
    | shared id => rw [StreamEngine.covered, StreamEngine.covered, hsame]
    | default => exact h.covered nofun
    | named id => exact h.covered nofun
    | partition id index => exact h.covered nofun

/-! ## The default stream -/

section

variable (h : Safe e)

include h

theorem Safe.appendNoSync (io : WriteIo) (r : ρ) :
    Keeps e (e.appendNoSync io r).2 :=
  (h.logs.carries_default ((h.logs .default e.log rfl).append io r) e.flusher).keeps_of
    (h.flusher.of_moves (e.log.append_moves io r).toMoves) h.shared rfl

theorem Safe.commitInline (io : SyncIo) :
    Keeps e (e.commitInline io).2 :=
  (h.logs.carries_default ((h.logs .default e.log rfl).advances (e.log.sync_moves io))
    e.flusher).keeps_of (h.flusher.of_moves (e.log.sync_moves io).toMoves) h.shared rfl

theorem Safe.maybeIssue (io : SyncIo) :
    Keeps e (e.maybeIssue io) := by
  have hmoves := e.log.prepareAsyncSync_moves io
  have hadv := (h.logs .default e.log rfl).advances hmoves
  have htarget {t} := @prepareAsyncSync_target ρ e.log t io
  unfold StreamEngine.maybeIssue
  split
  · generalize e.log.prepareAsyncSync io = res at hadv hmoves htarget ⊢
    obtain ⟨_ | _ | target, log⟩ := res
    · exact (h.logs.carries_default hadv e.flusher).keeps_of (h.flusher.of_moves hmoves.toMoves)
        h.shared rfl
    · exact (h.logs.carries_default hadv e.flusher).keeps_of (h.flusher.of_moves hmoves.toMoves)
        h.shared rfl
    · refine (h.logs.carries_default hadv (.inFlight target)).keeps_of ?_ h.shared rfl
      exact (htarget rfl).trans_le hmoves.nextOffset_le
  · exact ⟨h, fun _ => prefix_rfl⟩

theorem Safe.barrierReturns (ok : Bool) :
    Keeps e (e.barrierReturns ok) := by
  have hlog := h.logs .default e.log rfl
  have hflusher := h.flusher
  unfold FlusherOk at hflusher
  unfold StreamEngine.barrierReturns
  split
  · next target heq =>
    rw [heq] at hflusher
    have hadv := hlog.advances (e.log.barrierDone_moves target)
    cases ok with
    | true =>
      refine (h.logs.carries_default hadv (.returned target true)).keeps_of ?_ h.shared rfl
      intro _
      exact (le_min le_rfl hflusher).trans (le_max_right _ _)
    | false =>
      refine (h.logs.carries_default hlog.refl (.returned target false)).keeps_of ?_ h.shared rfl
      exact nofun
  · exact ⟨h, fun _ => prefix_rfl⟩

theorem Safe.onCompletion : Keeps e e.onCompletion := by
  have hlog := h.logs .default e.log rfl
  have hflusher := h.flusher
  unfold FlusherOk at hflusher
  unfold StreamEngine.onCompletion
  split
  · next target heq =>
    rw [heq] at hflusher
    have hadv := hlog.advances (completeAsyncSync_moves (hflusher rfl))
    exact (h.logs.carries_default hadv .idle).keeps_of trivial h.shared rfl
  · have hadv := hlog.advances e.log.freeze_moves
    exact (h.logs.carries_default hadv .idle).keeps_of trivial h.shared rfl
  · exact ⟨h, fun _ => prefix_rfl⟩

/-! ## Named streams -/

omit h in
theorem lookup_ensureNamedStreamOpen (e : StreamEngine ρ) (id id' : StreamId) :
    (e.ensureNamedStreamOpen id).streams.lookup id' =
      if id' = id then some ((e.streams.lookup id').getD .fresh) else e.streams.lookup id' := by
  unfold ensureNamedStreamOpen
  rcases hlook : e.streams.lookup id with _ | log
  · simp only [Option.isSome_none, Bool.false_eq_true, if_false]
    by_cases heq : id' = id
    · subst heq
      rw [lookup_append, hlook, if_pos rfl]
      simp
    · have hne : (id' == id) = false := by simpa using heq
      rw [lookup_append, if_neg heq, lookup_cons, hne]
      simp
  · simp only [Option.isSome_some, if_true]
    by_cases heq : id' = id
    · subst heq
      rw [if_pos rfl, hlook]
      rfl
    · rw [if_neg heq]

theorem Safe.ensureNamedStreamOpen (id : StreamId) :
    Keeps e (e.ensureNamedStreamOpen id) := by
  have hcarries : Carries e { e with streams := (e.ensureNamedStreamOpen id).streams } := by
    refine h.logs.carries_named (fun id' l hl => ⟨l, ?_, (h.logs (.named id') l hl).refl⟩)
      fun id' l' hnone hl' => ?_
    · rw [lookup_ensureNamedStreamOpen, hl]
      split <;> rfl
    · rw [lookup_ensureNamedStreamOpen, hnone] at hl'
      split at hl'
      · cases hl'
        exact fresh_safe
      · cases hl'
  have heq : e.ensureNamedStreamOpen id =
      { e with streams := (e.ensureNamedStreamOpen id).streams } := by
    unfold StreamEngine.ensureNamedStreamOpen
    split <;> rfl
  rw [heq]
  exact hcarries.keeps_of h.flusher h.shared rfl

omit h in
theorem Keeps.trans {e'' : StreamEngine ρ} (h : Keeps e e') (h' : Keeps e' e'') :
    Keeps e e'' := ⟨h'.safe, fun source => (h.covered source).trans (h'.covered source)⟩

/-- Replacing a named log by a later state of it. -/
theorem Safe.setStream {log' : HeadLog ρ} (hlook : e.streams.lookup id = some log)
    (hadv : log.Advances log') :
    Keeps e { e with streams := setLog e.streams id log' } := by
  refine (h.logs.carries_named (fun id' l hl => ?_) fun id' l' hnone hl' => ?_).keeps_of h.flusher
    h.shared rfl
  · rw [lookup_setLog, hl]
    by_cases heq : id' = id
    · subst heq
      rw [hlook] at hl
      cases hl
      exact ⟨log', by simp, hadv⟩
    · exact ⟨l, by simp [heq], (h.logs (.named id') l hl).refl⟩
  · rw [lookup_setLog, hnone] at hl'
    cases hl'

/-- A calm tick over the named streams. -/
theorem Safe.tickStreams {tick : StreamId → SyncIo}
    (hcalm : ∀ k l, e.streams.lookup k = some l → l.TickCalm (tick k)) :
    Keeps e { e with streams := (commitTick tick e.streams).2 } := by
  have hlook (id : StreamId) : (commitTick tick e.streams).2.lookup id =
      (e.streams.lookup id).map fun l => (l.tick (tick id)).2 := by
    rw [commitTick_eq]
    exact lookup_map_values e.streams (fun k l => (l.tick (tick k)).2) id
  refine (h.logs.carries_named (fun id l hl => ?_) fun id l' hnone hl' => ?_).keeps_of h.flusher
    h.shared rfl
  · exact ⟨(l.tick (tick id)).2, by rw [hlook, hl]; rfl,
      (h.logs (.named id) l hl).tick (hcalm id l hl)⟩
  · rw [hlook, hnone] at hl'
    cases hl'

theorem Safe.produceInStream {io : WriteIo} {tick : StreamId → SyncIo} {r : ρ}
    (hcalm : ∀ k l, (e.tickedStreams io id r).lookup k = some l → l.TickCalm (tick k)) :
    Keeps e (e.produceInStream io tick id r).2 := by
  have hopen := h.ensureNamedStreamOpen id
  unfold tickedStreams at hcalm
  unfold StreamEngine.produceInStream
  generalize e.ensureNamedStreamOpen id = e₁ at hopen hcalm ⊢
  dsimp only at hcalm ⊢
  rcases hlook : e₁.streams.lookup id with _ | log
  · exact hopen
  have hlog := hopen.safe.logs (.named id) log hlook
  have hset := hopen.safe.setStream hlook (hlog.append io r)
  rw [hlook] at hcalm
  dsimp only at hcalm ⊢
  generalize log.append io r = res at hset hcalm ⊢
  obtain ⟨_ | offset, log'⟩ := res
  · exact hopen.trans hset
  · exact (hopen.trans hset).trans (hset.safe.tickStreams hcalm)

omit h in
/-- A log that was synced is found again as it was. -/
theorem onlyCovered_of_synced {l : HeadLog ρ} {io : SyncIo} (hok : (l.sync io).1 = true) :
    (l.sync io).2.OnlyCovered ⟨(l.sync io).2.nextOffset, none, 0, false, false⟩ := by
  have hlen := (l.sync io).2.length_crash ⟨(l.sync io).2.nextOffset, none, 0, false, false⟩
  exact (hlen.trans_le (min_le_right _ _)).trans (sync_ok hok).2.2.ge

theorem Safe.evictNamedStream (io : SyncIo) (id : StreamId) :
    Keeps e (e.evictNamedStream io id).2 := by
  unfold StreamEngine.evictNamedStream
  rcases hlook : e.streams.lookup id with _ | log
  · exact ⟨h, fun _ => prefix_rfl⟩
  have hsynced := (h.logs (.named id) log hlook).advances (log.sync_moves io)
  have hfound := @onlyCovered_of_synced _ log io
  dsimp only
  generalize log.sync io = res at hsynced hfound ⊢
  obtain ⟨_ | _, log'⟩ := res
  · exact h.setStream hlook hsynced
  · exact h.setStream hlook (hsynced.trans (hsynced.safe.reopen (hfound rfl)))

/-! ## Partitions and lanes -/

omit h in
theorem getElem?_partitionTick (tick : Nat → SyncIo) (partitions : List (HeadLog ρ)) (i : Nat) :
    (partitionTick tick partitions).2[i]? =
      partitions[i]?.map fun l => (l.tick (tick i)).2 := by
  simp only [partitionTick, commitTick_eq, map_map, getElem?_map,
    getElem?_zipIdx, Nat.zero_add]
  rcases partitions[i]? with _ | l <;> rfl

/-- Replacing the partitions of a stream by later states of them. -/
theorem Safe.setPartitions {partitions partitions' : List (HeadLog ρ)}
    (hlook : e.partitioned.lookup id = some partitions)
    (hadv : ∀ (i : Nat) (l : HeadLog ρ), partitions[i]? = some l →
      ∃ l', partitions'[i]? = some l' ∧ l.Advances l')
    (hlen : ∀ i : Nat, partitions[i]? = none → partitions'[i]? = none) :
    Keeps e { e with partitioned := setLog e.partitioned id partitions' } := by
  refine (h.logs.carries_partitioned (fun id' i l hl => ?_) fun id' i l' hnone hl' => ?_).keeps_of
    h.flusher h.shared rfl
  · rw [logOf] at hl
    rw [lookup_setLog]
    by_cases heq : id' = id
    · subst heq
      rw [hlook] at hl ⊢
      obtain ⟨l', hl', hadv'⟩ := hadv i l hl
      exact ⟨l', by simpa using hl', hadv'⟩
    · refine ⟨l, ?_, (h.logs (.partition id' i) l hl).refl⟩
      obtain ⟨ps, hps, hl⟩ := Option.bind_eq_some_iff.mp hl
      simpa [hps, heq] using hl
  · rw [logOf] at hnone
    rw [lookup_setLog] at hl'
    rcases hps : e.partitioned.lookup id' with _ | ps
    · rw [hps] at hl'
      cases hl'
    · rw [hps] at hnone hl'
      by_cases heq : id' = id
      · subst heq
        rw [hlook] at hps
        cases hps
        simp [hlen i hnone] at hl'
      · simp only [Option.bind_some] at hnone
        simp [heq, hnone] at hl'

theorem Safe.declarePartitioned (id : StreamId) (count : Nat) :
    Keeps e (e.declarePartitioned id count) := by
  unfold StreamEngine.declarePartitioned
  split
  · exact ⟨h, fun _ => prefix_rfl⟩
  refine (h.logs.carries_partitioned (fun id' i l hl => ⟨l, ?_, (h.logs _ l hl).refl⟩)
    fun id' i l' hnone hl' => ?_).keeps_of h.flusher h.shared rfl
  · obtain ⟨ps, hps, hl⟩ := Option.bind_eq_some_iff.mp hl
    rw [lookup_append, hps]
    exact hl
  · rw [lookup_append] at hl'
    obtain ⟨ps, hps, hl'⟩ := Option.bind_eq_some_iff.mp hl'
    rw [logOf] at hnone
    rcases hold : e.partitioned.lookup id' with _ | old
    · rw [hold, Option.none_or, lookup_cons] at hps
      split at hps
      · cases hps
        rw [eq_of_mem_replicate (mem_of_getElem? hl')]
        exact fresh_safe
      · cases hps
    · rw [hold, Option.some_or] at hps
      cases hps
      rw [hold, Option.bind_some, hl'] at hnone
      cases hnone

theorem Safe.producePartition {io : WriteIo} {tick : Nat → SyncIo} {index : Nat} {r : ρ}
    (hcalm : ∀ (i : Nat) (l : HeadLog ρ), (e.tickedPartitions io id index r)[i]? = some l →
      l.TickCalm (tick i)) :
    Keeps e (e.producePartition io tick id index r).2 := by
  unfold tickedPartitions at hcalm
  unfold StreamEngine.producePartition
  rcases hlook : e.partitioned.lookup id with _ | partitions
  · exact ⟨h, fun _ => List.prefix_rfl⟩
  have hsafe (i : Nat) (l : HeadLog ρ) (hl : partitions[i]? = some l) : l.Safe :=
    h.logs (.partition id i) l (by rw [logOf, hlook]; exact hl)
  rw [hlook] at hcalm
  dsimp only at hcalm ⊢
  rcases hlog : partitions[index]? with _ | log
  · exact ⟨h, fun _ => List.prefix_rfl⟩
  have hadv := (hsafe index log hlog).append io r
  rw [hlog] at hcalm
  dsimp only at hcalm ⊢
  generalize log.append io r = res at hadv hcalm ⊢
  -- the other partitions stay as they are; the tick comes after
  have hset (i : Nat) (l : HeadLog ρ) (hl : partitions[i]? = some l) :
      ∃ l', (partitions.set index res.2)[i]? = some l' ∧ l.Advances l' := by
    obtain ⟨hlt, -⟩ := List.getElem?_eq_some_iff.mp hl
    by_cases heq : index = i
    · subst heq
      rw [hlog] at hl
      cases hl
      exact ⟨res.2, List.getElem?_set_self hlt, hadv⟩
    · exact ⟨l, by rw [List.getElem?_set_ne heq, hl], (hsafe i l hl).refl⟩
  have hlen (i : Nat) (hnone : partitions[i]? = none) :
      (partitions.set index res.2)[i]? = none := by
    rw [List.getElem?_eq_none_iff] at hnone ⊢
    simpa using hnone
  obtain ⟨_ | offset, log'⟩ := res
  · exact h.setPartitions hlook hset hlen
  · refine h.setPartitions hlook (fun i l hl => ?_) fun i hnone => ?_
    · obtain ⟨l', hl', hadv'⟩ := hset i l hl
      exact ⟨(l'.tick (tick i)).2, by rw [getElem?_partitionTick, hl']; rfl,
        hadv'.trans (hadv'.safe.tick (hcalm i l' hl'))⟩
    · rw [getElem?_partitionTick, hlen i hnone]
      rfl

/-! ## The shared log -/

/-- A call that moves the shared log on. -/
theorem Safe.setShared {wal' : SharedWal ρ} (hwal : e.sharedWal = some wal)
    (hinv : SharedWal.Inv ⟨wal', []⟩) (hcov : wal'.log.Covered)
    (hgrows : wal.log.coveredRecords <+: wal'.log.coveredRecords) :
    Keeps e { e with sharedWal := some wal' } where
  safe := ⟨h.logs, h.flusher, fun w hw => by cases hw; exact ⟨hinv, hcov⟩⟩
  covered source := by
    cases source with
    | shared id =>
      rw [covered, covered, hwal]
      exact streamSeq_front hgrows id
    | default => exact prefix_rfl
    | named id => exact prefix_rfl
    | partition id index => exact prefix_rfl

/-- Appending to the shared log. -/
theorem Safe.appendShared (hwal : e.sharedWal = some wal) (io : WriteIo) (id : StreamId) (r : ρ) :
    Keeps e { e with sharedWal := some (wal.appendTo io id r).2 } := by
  obtain ⟨hinv, hcov⟩ := h.shared wal hwal
  obtain ⟨hmoves, -⟩ := wal.appendTo_moves io id r
  refine h.setShared hwal ?_ (hmoves.covered hcov) hmoves.coveredRecords
  rcases heq : wal.appendTo io id r with ⟨e | pos, wal'⟩
  · exact hinv.appendFails heq
  · exact (hinv.appendTo heq).1.forget

theorem Safe.syncShared (hwal : e.sharedWal = some wal) (io : SyncIo) :
    Keeps e { e with sharedWal := some (wal.sync io).2 } := by
  obtain ⟨hinv, hcov⟩ := h.shared wal hwal
  have hmoves := wal.log.sync_moves io
  refine h.setShared hwal (hinv.sync io) ?_ ?_
  · rw [sync_eq]
    exact hmoves.covered hcov
  · rw [sync_eq]
    exact hmoves.coveredRecords

theorem Safe.declareShared (hwal : e.sharedWal = some wal) (id : StreamId) :
    Keeps e { e with sharedWal := some (wal.declare id).2 } := by
  obtain ⟨hinv, hcov⟩ := h.shared wal hwal
  obtain ⟨hlog, -⟩ := wal.declare_log id
  refine h.setShared hwal (hinv.declare id) ?_ ?_
  · rw [hlog]
    exact hcov
  · rw [hlog]

theorem Safe.produceInSharedStream (io : WriteIo) (sync : SyncIo) (id : StreamId)
    (r : ρ) : Keeps e (e.produceInSharedStream io sync id r).2 := by
  unfold StreamEngine.produceInSharedStream
  rcases hwal : e.sharedWal with _ | wal
  · exact ⟨h, fun _ => prefix_rfl⟩
  have hdeclared := h.declareShared hwal id
  have happend := hdeclared.trans (hdeclared.safe.appendShared rfl io id r)
  dsimp only at happend ⊢
  generalize (wal.declare id).2.appendTo io id r = res at happend ⊢
  obtain ⟨err | pos, w⟩ := res
  · exact happend
  · have hsync := happend.trans (happend.safe.syncShared rfl sync)
    dsimp only at hsync ⊢
    generalize w.sync sync = res at hsync ⊢
    obtain ⟨err | synced, w'⟩ := res <;> exact hsync

/-! ## Polls -/

/-- A delivered record is a covered one. -/
def Delivers (e : StreamEngine ρ) (d : Delivered ρ) : Prop :=
  (e.covered d.source)[d.offset]? = some d.record

theorem Safe.poll (hd : e.poll offset = some d) : Delivers e d := by
  obtain ⟨r, hr, rfl⟩ := Option.map_eq_some_iff.mp hd
  exact (h.logs .default e.log rfl).visibleAt hr

theorem Safe.pollPartition {index : Nat}
    (hd : e.pollPartition id index offset = some d) : Delivers e d := by
  simp only [StreamEngine.pollPartition, bind, Option.bind_eq_some_iff, Option.map_eq_some_iff]
    at hd
  obtain ⟨partitions, hps, log, hlog, r, hr, rfl⟩ := hd
  have hof : e.logOf (.partition id index) = some log := by
    rw [logOf, hps]
    exact hlog
  rw [Delivers, covered, hof]
  · exact (h.logs _ log hof).visibleAt hr
  · nofun

theorem Safe.pollLanes {pick : Nat → Option Nat} {count : Nat}
    (hd : e.pollLanes id pick count = some d) : Delivers e d := by
  induction count with
  | zero => cases hd
  | succ lane ih =>
    rw [StreamEngine.pollLanes] at hd
    split at hd
    · next d' hpoll =>
      cases hd
      obtain ⟨offset, -, hoffset⟩ := Option.bind_eq_some_iff.mp hpoll
      exact h.pollPartition hoffset
    · exact ih hd

theorem Safe.pollNamed (hd : e.pollNamed id offset = some d) : Delivers e d := by
  simp only [StreamEngine.pollNamed, bind, Option.bind_eq_some_iff] at hd
  obtain ⟨flushed, -, hd⟩ := hd
  split at hd
  · cases hd
  rcases hwal : e.sharedWal with _ | wal
  · rw [hwal] at hd
    dsimp only at hd
    obtain ⟨log, hlog, hd⟩ := Option.bind_eq_some_iff.mp hd
    obtain ⟨r, hr, rfl⟩ := Option.map_eq_some_iff.mp hd
    have hof : e.logOf (.named id) = some log := hlog
    rw [Delivers, covered, hof]
    · exact (h.logs _ log hof).visibleAt hr
    · nofun
  · rw [hwal] at hd
    dsimp only at hd
    obtain ⟨hinv, hcov⟩ := h.shared wal hwal
    split at hd
    · next r hread =>
      cases hd
      obtain ⟨-, -, hget⟩ := hinv.readAt_ok hread
      rw [Delivers, covered, hwal]
      exact List.IsPrefix.getElem?_eq_some
        (streamSeq_front (take_prefix_take_left hcov) id) hget
    · cases hd

end

/-! ## Restart -/

/-- The logs after a restart, the shared one apart. -/
theorem logOf_reopen (h : e.reopen io = some e') (source : PollSource) :
    e'.logOf source = (e.logOf source).map fun l =>
      l.reopen (match source with
        | .named id => io.named id
        | .partition id i => io.partition id i
        | _ => io.default) := by
  have hlogs : e'.log = e.log.reopen io.default
      ∧ e'.streams = e.streams.map (fun s => (s.1, s.2.reopen (io.named s.1)))
      ∧ e'.partitioned = e.partitioned.map fun s =>
        (s.1, s.2.mapIdx fun i l => l.reopen (io.partition s.1 i)) := by
    unfold reopen at h
    rcases hwal : e.sharedWal with _ | wal
    · rw [hwal] at h
      cases h
      exact ⟨rfl, rfl, rfl⟩
    · rw [hwal] at h
      dsimp only at h
      split at h
      · cases h
      · cases h
        exact ⟨rfl, rfl, rfl⟩
  obtain ⟨hlog, hstreams, hpartitioned⟩ := hlogs
  cases source with
  | default => rw [logOf, hlog]; rfl
  | named id =>
    rw [logOf, hstreams]
    exact lookup_map_values e.streams (fun id l => l.reopen (io.named id)) id
  | partition id index =>
    rw [logOf, hpartitioned, lookup_map_values e.partitioned
      (fun id ps => ps.mapIdx fun i l => l.reopen (io.partition id i)) id, logOf]
    rcases e.partitioned.lookup id with _ | ps
    · rfl
    · exact getElem?_mapIdx
  | shared id => rfl

/-- The shared log after a restart. -/
theorem sharedWal_reopen (h : e.reopen io = some e') :
    (e.sharedWal = none ∧ e'.sharedWal = none)
    ∨ ∃ wal wal' n, e.sharedWal = some wal ∧ e'.sharedWal = some wal'
      ∧ wal.reopen io.shared io.found = .ok (wal', n) := by
  unfold reopen at h
  rcases hwal : e.sharedWal with _ | wal
  · rw [hwal] at h
    cases h
    exact .inl ⟨rfl, rfl⟩
  · rw [hwal] at h
    dsimp only at h
    split at h
    · cases h
    · next wal' n hopen =>
      cases h
      exact .inr ⟨wal, wal', n, rfl, rfl, hopen⟩

/-- A restart that finds only covered records. -/
theorem Safe.reopen (h : Safe e) (hopen : e.reopen io = some e')
    (hfound : ∀ wal, e.sharedWal = some wal → io.found ∈ wal.checkpoint.contents)
    (hdefault : e.log.OnlyCovered io.default)
    (hnamed : ∀ id l, e.logOf (.named id) = some l → l.OnlyCovered (io.named id))
    (hpartition : ∀ id i l, e.logOf (.partition id i) = some l → l.OnlyCovered (io.partition id i))
    (hshared : ∀ wal, e.sharedWal = some wal → wal.log.OnlyCovered io.shared) : Keeps e e' := by
  have hlogs := logOf_reopen hopen
  -- a log that is opened again covers what it covered before
  have hcarries : Carries e e' := by
    constructor
    · intro source l hl
      rw [hlogs, hl]
      refine ⟨_, rfl, (h.logs source l hl).reopen ?_⟩
      cases source with
      | default => cases hl; exact hdefault
      | named id => exact hnamed id l hl
      | partition id i => exact hpartition id i l hl
      | shared id => cases hl
    · intro source l' hnone hl'
      rw [hlogs, hnone] at hl'
      cases hl'
  have hidle : e'.flusher = .idle := by
    unfold StreamEngine.reopen at hopen
    dsimp only at hopen
    split at hopen
    · cases hopen; rfl
    · split at hopen
      · cases hopen
      · cases hopen; rfl
  have hflusher : FlusherOk e' := by
    rw [FlusherOk, hidle]
    trivial
  rcases sharedWal_reopen hopen with ⟨hno, hno'⟩ | ⟨wal, wal', n, hwal, hwal', hreopen⟩
  · exact hcarries.keeps_of hflusher h.shared (hno'.trans hno.symm)
  obtain ⟨hinv, hcov⟩ := h.shared wal hwal
  have honly := hshared wal hwal
  have hlog : wal'.log = wal.log.reopen io.shared := (reopen_eq hreopen).1
  have hadv : wal.log.Advances (wal.log.reopen io.shared) :=
    HeadLog.Safe.reopen ⟨hinv.wf, hcov⟩ honly
  refine ⟨⟨hcarries.logsSafe, hflusher, fun w hw => ?_⟩, fun source => ?_⟩
  · rw [hwal'] at hw
    cases hw
    refine ⟨(hinv.reopen (hfound wal hwal) hreopen (hcov.trans (le_max_left _ _))).1.forget, ?_⟩
    rw [hlog]
    exact hadv.safe.covered
  · cases source with
    | shared id =>
      rw [covered, covered, hwal, hwal']
      refine streamSeq_front ?_ id
      rw [hlog]
      exact hadv.covered
    | default => exact hcarries.covered nofun
    | named id => exact hcarries.covered nofun
    | partition id index => exact hcarries.covered nofun

/-! ## Whole runs -/

/-- The engine a step leaves keeps what barriers have covered; polls leave the engine alone. -/
theorem Inv.keeps (h : Inv s) (hkeeps : Keeps s.engine e) :
    Inv { s with engine := e } where
  safe := hkeeps.safe
  delivered d hd := List.IsPrefix.getElem?_eq_some (hkeeps.covered d.source) (h.delivered d hd)

theorem Inv.delivers (h : Inv s) (hd : Delivers s.engine d) :
    Inv { s with delivered := s.delivered ++ [d] } where
  safe := h.safe
  delivered d' hd' := by
    rcases mem_append.mp hd' with hold | hnew
    · exact h.delivered d' hold
    · rw [mem_singleton.mp hnew]
      exact hd

theorem Step.inv {s' : World ρ} (hstep : Step s s') (h : Inv s) : Inv s' := by
  cases hstep with
  | appendNoSync io r => exact h.keeps (h.safe.appendNoSync io r)
  | commitInline io => exact h.keeps (h.safe.commitInline io)
  | maybeIssue io => exact h.keeps (h.safe.maybeIssue io)
  | barrierReturns ok => exact h.keeps (h.safe.barrierReturns ok)
  | onCompletion => exact h.keeps h.safe.onCompletion
  | produceInStream hcalm => exact h.keeps (h.safe.produceInStream hcalm)
  | evictNamedStream io id => exact h.keeps (h.safe.evictNamedStream io id)
  | declarePartitioned id count => exact h.keeps (h.safe.declarePartitioned id count)
  | producePartitioned hcalm => exact h.keeps (h.safe.producePartition hcalm)
  | producePriority hcalm => exact h.keeps (h.safe.producePartition hcalm)
  | produceInSharedStream io sync id r => exact h.keeps (h.safe.produceInSharedStream io sync id r)
  | poll hd => exact h.delivers (h.safe.poll hd)
  | pollNamed hd => exact h.delivers (h.safe.pollNamed hd)
  | pollPartition hd => exact h.delivers (h.safe.pollPartition hd)
  | pollPriority hd => exact h.delivers (h.safe.pollLanes hd)
  | reopen hopen hfound hdefault hnamed hpartition hshared =>
    exact h.keeps (h.safe.reopen hopen hfound hdefault hnamed hpartition hshared)

theorem inv_fresh (shared : Bool) : Inv (World.fresh shared : World ρ) where
  safe := {
    logs := by
      intro source l hl
      cases source with
      | default => cases hl; exact fresh_safe
      | named id => cases hl
      | partition id i => cases hl
      | shared id => cases hl
    flusher := trivial
    shared := by
      intro wal hwal
      cases shared with
      | false => cases hwal
      | true => cases hwal; exact ⟨SharedWal.inv_fresh, le_rfl⟩ }
  delivered := nofun

theorem Reach.inv {s' : World ρ} (hreach : Reach s s') (h : Inv s) : Inv s' := by
  induction hreach with
  | refl => exact h
  | tail _ hstep ih => exact hstep.inv ih

/-- In every run in which no barrier of a tick fails after its log was written out and no log is
opened with more than barriers have covered, whatever a poll of any kind of stream delivered is
covered by a barrier that succeeded, at its offset, in every later state, crashes included. -/
theorem delivered_stay {shared : Bool} {s s' : World ρ} (hs : Reach (World.fresh shared) s)
    (hs' : Reach s s') :
    ∀ d ∈ s.delivered, (s.engine.covered d.source)[d.offset]? = some d.record
      ∧ (s'.engine.covered d.source)[d.offset]? = some d.record := by
  intro d hd
  have hinv := hs.inv (inv_fresh shared)
  have hmem : ∀ {t t' : World ρ}, Reach t t' → d ∈ t.delivered → d ∈ t'.delivered := by
    intro t t' hreach hmem
    induction hreach with
    | refl => exact hmem
    | tail _ hstep ih =>
      cases hstep with
      | poll h => exact List.mem_append_left _ ih
      | pollNamed h => exact List.mem_append_left _ ih
      | pollPartition h => exact List.mem_append_left _ ih
      | pollPriority h => exact List.mem_append_left _ ih
      | _ => exact ih
  exact ⟨hinv.delivered d hd, (hs'.inv hinv).delivered d (hmem hs' hd)⟩

/-! ## Runs on one record -/

/-- A crash after which every log has `survivors` unsynced records left and no stray. -/
def plainCrash (survivors : Nat) : CrashIo :=
  let io := SharedWal.plainCrash survivors
  ⟨io, fun _ => io, fun _ _ => io, io, none⟩

/-- One record produced to a named stream; the tick's barrier does as told. -/
def producedOnce (barrierFails : Bool) : Option Nat × StreamEngine Nat :=
  (fresh false).produceInStream .ok (fun _ => ⟨.started, false, barrierFails⟩)
    letterStream 7

theorem delivered_stay_restart :
    ∃ s s' : World Nat, Reach (World.fresh false) s ∧ Reach s s'
      ∧ ∃ d ∈ s.delivered, (s'.engine.covered d.source)[d.offset]? = some d.record := by
  let e := (producedOnce false).2
  let d : Delivered Nat := ⟨.named letterStream, 0, 7⟩
  let s : World Nat := ⟨e, [d]⟩
  have hs : Reach (World.fresh false) s := by
    refine (Relation.ReflTransGen.single (@Step.produceInStream Nat _ .ok (fun _ => .ok)
      letterStream 7 fun _ _ _ _ _ _ => rfl)).tail ?_
    exact @Step.pollNamed Nat ⟨e, []⟩ letterStream 0 d rfl
  obtain ⟨e', he'⟩ : ∃ e', e.reopen (plainCrash 0) = some e' := ⟨_, rfl⟩
  have hnamed : ∀ id l, e.logOf (.named id) = some l → l.OnlyCovered (SharedWal.plainCrash 0) := by
    intro id l hl
    obtain rfl : id = SharedWal.letterStream := by
      by_contra hne
      have hnone : e.logOf (.named id) = none := by
        show List.lookup id [(letterStream, _)] = none
        have hbeq : (id == letterStream) = false := by simpa using hne
        rw [List.lookup_cons, hbeq]
        rfl
      exact nomatch hnone.symm.trans hl
    have hlog : e.logOf (.named letterStream) =
        some ⟨⟨[7], 1, false, by decide⟩, [], [0], false, 1, 1⟩ := by rfl
    rw [hlog] at hl
    cases hl
    exact Nat.le_refl 1
  have hs' : Reach s { s with engine := e' } :=
    .single (Step.reopen he' nofun (by show _ ≤ _; decide +kernel) hnamed nofun nofun)
  exact ⟨s, _, hs, hs', d, List.mem_cons_self,
    (delivered_stay hs hs' d List.mem_cons_self).2⟩

/-- A record whose produce failed at the tick's barrier is delivered although no barrier has covered
it, and the next crash takes it. So does a record of the default stream whose barrier failed, once
an opening has found it. -/
theorem delivered_disappears :
    let (offset, e) := producedOnce true
    let e' := (((fresh false).appendNoSync .ok 7).2.commitInline ⟨.started, false, true⟩).2
    let found := (e'.reopen (plainCrash 1)).getD e'
    offset = none
      ∧ (e.pollNamed SharedWal.letterStream 0).map Delivered.record = some 7
      ∧ e.covered (.named SharedWal.letterStream) = []
      ∧ ((e.reopen (plainCrash 0)).map fun e => e.pollNamed SharedWal.letterStream 0 |>.isSome) =
        some false
      ∧ (e'.poll 0).isSome = false
      ∧ (found.poll 0).map Delivered.record = some 7 ∧ found.covered .default = []
      ∧ ((found.reopen (plainCrash 0)).map fun e => (e.poll 0).isSome) = some false := by
  decide +kernel

end StreamEngine

end IronBus
