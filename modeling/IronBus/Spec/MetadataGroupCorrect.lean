import IronBus.Native.MetadataGroup

/-!
# A restarted metadata node catches up with one that never crashed

A restart takes the state machine back to the snapshot, but the membership only to the last one
written, which is usually newer. The changes in between are then applied to a membership that has
them already.

Key results:
- `Kept.driveReady`, `Kept.openInner`: a node replays the log, and a restart starts the replay again
- `restart_catches_up`: in every run, a node that has applied the whole log has replayed it
-/

namespace IronBus

open List

namespace MetadataRaftGroup

section

variable (raft : RaftCore) (seed : ConfState)

/-! ## The node that never crashes -/

/-- What a node makes of one entry. -/
def entryStep (index : Nat) (p : EntryPayload) (x : MetadataStateMachine × ConfState) :
    Option (MetadataStateMachine × ConfState) :=
  let change (cc : ConfChangeV2) := (raft x.2 cc).map fun cs => (x.1.setMembership index cs, cs)
  match p with
  | .noop => some x
  | .command cmd => some (x.1.apply index cmd, x.2)
  | .undecodable | .garbledConfChange => none
  | .confChangeV1 c => change c.intoV2
  | .confChangeV2 cc => change cc

/-- The state machine and the membership after the first entries of a history. -/
def replay (hist : List EntryPayload) : Nat → Option (MetadataStateMachine × ConfState)
  | 0 => some (.new, seed)
  | n + 1 => (replay hist n).bind fun x => hist[n]?.bind fun p => entryStep raft (n + 1) p x

/-- The membership change that follows the first entries of a history. -/
def changeAt (hist : List EntryPayload) (n : Nat) : Option ConfChangeV2 :=
  hist[n]?.bind EntryPayload.change

/-- The same state machine, up to the members. -/
def Agree (a s : MetadataStateMachine) : Prop := { a with members := s.members } = s

variable {raft seed} {hist : List EntryPayload} {n m : Nat} {p : EntryPayload}
  {a s s' : MetadataStateMachine} {c c' : ConfState}

theorem replay_succ (h : replay raft seed hist (n + 1) = some (s, c)) :
    ∃ s' c' p, replay raft seed hist n = some (s', c') ∧ hist[n]? = some p
      ∧ entryStep raft (n + 1) p (s', c') = some (s, c) := by
  rw [replay] at h
  obtain ⟨⟨s', c'⟩, hx, h⟩ := Option.bind_eq_some_iff.1 h
  obtain ⟨p, hp, h⟩ := Option.bind_eq_some_iff.1 h
  exact ⟨s', c', p, hx, hp, h⟩

theorem replay_le (h : replay raft seed hist n = some (s, c)) : n ≤ hist.length := by
  cases n with
  | zero => exact Nat.zero_le _
  | succ n =>
    obtain ⟨_, _, p, -, hp, -⟩ := replay_succ h
    exact (List.getElem?_eq_some_iff.1 hp).1

theorem replay_append (more : List EntryPayload) (hn : n ≤ hist.length) :
    replay raft seed (hist ++ more) n = replay raft seed hist n := by
  induction n with
  | zero => rfl
  | succ n ih => rw [replay, replay, ih (by omega), getElem?_append_left (by omega)]

/-- An entry without a membership change keeps the membership. -/
theorem entryStep_of_no_change {i : Nat} (hp : p.change = none)
    (h : entryStep raft i p (s', c') = some (s, c)) :
    c = c' ∧ ((p = .noop ∧ s = s') ∨ ∃ cmd, p = .command cmd ∧ s = s'.apply i cmd) := by
  cases p with
  | noop =>
    cases h
    exact ⟨rfl, .inl ⟨rfl, rfl⟩⟩
  | command cmd =>
    cases h
    exact ⟨rfl, .inr ⟨cmd, rfl, rfl⟩⟩
  | undecodable => cases h
  | garbledConfChange => cases h
  | confChangeV1 _ => cases hp
  | confChangeV2 _ => cases hp

/-- A membership change replaces the members. -/
theorem entryStep_of_change {i : Nat} {cc : ConfChangeV2} (hp : p.change = some cc)
    (h : entryStep raft i p (s', c') = some (s, c)) :
    raft c' cc = some c ∧ s = s'.setMembership i c := by
  have key : (raft c' cc).map (fun cs => (s'.setMembership i cs, cs)) = some (s, c) := by
    cases p with
    | confChangeV1 _ =>
      cases hp
      exact h
    | confChangeV2 _ =>
      cases hp
      exact h
    | _ => cases hp
  obtain ⟨cs, hcs, heq⟩ := Option.map_eq_some_iff.1 key
  cases heq
  exact ⟨hcs, rfl⟩

theorem changeAt_eq (hp : hist[n]? = some p) : changeAt hist n = p.change := by
  rw [changeAt, hp, Option.bind_some]

/-- Where no membership change lies between two positions, the membership is the same. -/
theorem replay_conf_eq (hmn : m ≤ n) (hm : replay raft seed hist m = some (s, c))
    (hn : replay raft seed hist n = some (s', c'))
    (hnone : ∀ k, m ≤ k → k < n → changeAt hist k = none) : c' = c := by
  induction n generalizing s' c' with
  | zero =>
    obtain rfl : m = 0 := by omega
    rw [hm] at hn
    cases hn
    rfl
  | succ n ih =>
    obtain rfl | hlt := Nat.eq_or_lt_of_le hmn
    · rw [hm] at hn
      cases hn
      rfl
    · obtain ⟨s₁, c₁, p, hx, hp, hstep⟩ := replay_succ hn
      have hchange : p.change = none := by
        rw [← changeAt_eq hp]
        exact hnone n (by omega) (by omega)
      obtain ⟨rfl, -⟩ := entryStep_of_no_change hchange hstep
      exact ih (by omega) hx fun k hk hk' => hnone k hk (by omega)

/-- The state machine stands where its applied index says: what follows changes nothing. -/
theorem replay_appliedIndex (h : replay raft seed hist n = some (s, c)) :
    s.appliedIndex ≤ n ∧ ∃ c', replay raft seed hist s.appliedIndex = some (s, c') := by
  induction n generalizing s c with
  | zero =>
    cases h
    exact ⟨le_rfl, _, rfl⟩
  | succ n ih =>
    obtain ⟨s₁, c₁, p, hx, hp, hstep⟩ := replay_succ h
    rcases hchange : p.change with _ | cc
    · obtain ⟨-, ⟨-, rfl⟩ | ⟨cmd, -, rfl⟩⟩ := entryStep_of_no_change hchange hstep
      · exact ⟨(ih hx).1.trans (Nat.le_succ n), (ih hx).2⟩
      · exact ⟨le_rfl, _, h⟩
    · obtain ⟨-, rfl⟩ := entryStep_of_change hchange hstep
      exact ⟨le_rfl, _, h⟩

namespace Agree

theorem refl (s : MetadataStateMachine) : Agree s s := rfl

theorem eq (h : Agree a s) (hm : a.members = s.members) : a = s := by
  rw [← h, ← hm]

theorem appliedIndex (h : Agree a s) : a.appliedIndex = s.appliedIndex := by
  rw [← h]

theorem apply (h : Agree a s) (i : Nat) (cmd : MetadataCommand) :
    Agree (a.apply i cmd) (s.apply i cmd)
      ∧ (a.members = s.members → (a.apply i cmd).members = (s.apply i cmd).members) := by
  refine ⟨?_, fun hm => by rw [h.eq hm]⟩
  rw [← h]
  cases cmd <;> rfl

theorem setMembership (h : Agree a s) (i : Nat) (cs : ConfState) :
    a.setMembership i cs = s.setMembership i cs := by
  rw [← h]
  rfl

end Agree

/-! ## What holds of a node -/

/-- The memberships a crash may leave. -/
def written (d : MetadataDisk) : List WrittenConf := d.synced :: d.unsynced

theorem found_mem_written (d : MetadataDisk) : d.found ∈ written d := by
  rw [MetadataDisk.found, written]
  rcases h : d.unsynced.getLast? with _ | f
  · exact mem_cons_self
  · exact mem_cons_of_mem _ (mem_of_getLast? h)

variable (raft seed hist)

/-- A written membership is that of its position, where a change ends. -/
structure ConfAt (w : WrittenConf) : Prop where
  known : ∃ s, replay raft seed hist w.upTo = some (s, w.confState)
  marks : ∀ n, w.upTo = n + 1 → (changeAt hist n).isSome

/-- A state machine is that of a position up to the members, and altogether if a crash may leave a
membership that is not ahead of it. -/
def StateAt (n : Nat) (a : MetadataStateMachine) (ws : List WrittenConf) : Prop :=
  ∃ s c, replay raft seed hist n = some (s, c) ∧ Agree a s
    ∧ ∀ f ∈ ws, f.upTo ≤ n → a.members = s.members

/-- What holds of a node whether or not it has stopped. -/
structure Kept (g : MetadataRaftGroup) : Prop where
  snapshot_le : g.disk.snapshotIndex ≤ g.applied
  confs : ∀ f ∈ written g.disk, ConfAt raft seed hist f
  /-- A membership change is written before it counts as applied. -/
  covers : ∀ f ∈ written g.disk, ∀ k < g.applied, (changeAt hist k).isSome → k < f.upTo
  state : StateAt raft seed hist g.applied g.state (written g.disk)
  snapshot : StateAt raft seed hist g.disk.snapshotIndex g.disk.snapshotState (written g.disk)

/-- What holds of a node that goes on. -/
structure Live (g : MetadataRaftGroup) : Prop where
  found : g.disk.found = ⟨g.config, g.upTo⟩
  /-- The changes that are applied again leave the membership as it is. -/
  absorbs : ∀ k cc, g.applied ≤ k → k < g.upTo → changeAt hist k = some cc →
    raft g.config cc = some g.config

variable {raft seed hist} {g : MetadataRaftGroup} {ws ws' : List WrittenConf} {cc : ConfChangeV2}

theorem StateAt.shrink (h : StateAt raft seed hist n a ws) (hsub : ws' ⊆ ws) :
    StateAt raft seed hist n a ws' := by
  obtain ⟨s, c, hs, hagree, htrust⟩ := h
  exact ⟨s, c, hs, hagree, fun f hf => htrust f (hsub hf)⟩

/-- A membership that lies ahead of a position says nothing about the state there. -/
theorem StateAt.ahead (h : StateAt raft seed hist n a ws) (hws : ∀ f ∈ ws', f ∈ ws ∨ n < f.upTo) :
    StateAt raft seed hist n a ws' := by
  obtain ⟨s, c, hs, hagree, htrust⟩ := h
  refine ⟨s, c, hs, hagree, fun f hf hle => ?_⟩
  obtain hf | hlt := hws f hf
  · exact htrust f hf hle
  · omega

/-- Past an entry without a membership change. -/
theorem StateAt.succ (h : StateAt raft seed hist n a ws) (hp : hist[n]? = some p)
    (hchange : p.change = none) (hvalid : (replay raft seed hist (n + 1)).isSome)
    (hconfs : ∀ f ∈ ws, ConfAt raft seed hist f) :
    ∃ a', (p = .noop ∧ a' = a ∨ ∃ cmd, p = .command cmd ∧ a' = a.apply (n + 1) cmd)
      ∧ StateAt raft seed hist (n + 1) a' ws := by
  obtain ⟨s, c, hs, hagree, htrust⟩ := h
  obtain ⟨⟨s₁, c₁⟩, hs₁⟩ := Option.isSome_iff_exists.1 hvalid
  obtain ⟨s₀, c₀, p₀, hs₀, hp₀, hstep⟩ := replay_succ hs₁
  rw [hs] at hs₀
  cases hs₀
  rw [hp] at hp₀
  cases hp₀
  have hold : ∀ f ∈ ws, f.upTo ≤ n + 1 → a.members = s.members := by
    intro f hf hle
    obtain heq | hlt := Nat.eq_or_lt_of_le hle
    · -- a membership that ends here would make the entry a change
      have := (hconfs f hf).marks n heq
      rw [changeAt_eq hp, hchange] at this
      cases this
    · exact htrust f hf (by omega)
  obtain ⟨-, ⟨rfl, rfl⟩ | ⟨cmd, rfl, rfl⟩⟩ := entryStep_of_no_change hchange hstep
  · exact ⟨a, .inl ⟨rfl, rfl⟩, _, _, hs₁, hagree, hold⟩
  · obtain ⟨hagree', hmem⟩ := hagree.apply (n + 1) cmd
    exact ⟨_, .inr ⟨cmd, rfl, rfl⟩, _, _, hs₁, hagree', fun f hf hle => hmem (hold f hf hle)⟩

/-- The membership of a node that is not ahead of it. -/
theorem Live.config_eq (hl : Live raft hist g) (hk : Kept raft seed hist g)
    (hle : g.upTo ≤ g.applied) (hs : replay raft seed hist g.applied = some (s, c)) :
    g.config = c := by
  have hmem : ⟨g.config, g.upTo⟩ ∈ written g.disk := hl.found ▸ found_mem_written g.disk
  obtain ⟨s₀, hs₀⟩ := (hk.confs _ hmem).known
  refine (replay_conf_eq hle hs₀ hs fun k hk₁ hk₂ => ?_).symm
  rcases hchange : changeAt hist k with _ | cc
  · rfl
  · have := hk.covers _ hmem k hk₂ (by rw [hchange]; rfl)
    simp only at this
    omega

/-- A node that goes on takes the next membership change. It is then where a node that never crashed
is, or as far ahead as before. -/
theorem Live.change (hl : Live raft hist g) (hk : Kept raft seed hist g)
    (hcc : changeAt hist g.applied = some cc)
    (hs : replay raft seed hist (g.applied + 1) = some (s, c)) :
    ∃ cs, raft g.config cc = some cs
      ∧ ConfAt raft seed hist ⟨cs, max g.upTo (g.applied + 1)⟩
      ∧ (g.upTo ≤ g.applied + 1 → cs = c)
      ∧ ∀ k cc, g.applied + 1 ≤ k → k < max g.upTo (g.applied + 1) → changeAt hist k = some cc →
        raft cs cc = some cs := by
  by_cases hle : g.upTo ≤ g.applied
  · obtain ⟨s₀, c₀, p, hs₀, hp, hstep⟩ := replay_succ hs
    have hchange : p.change = some cc := by rw [← changeAt_eq hp, hcc]
    obtain ⟨hraft, -⟩ := entryStep_of_change hchange hstep
    have hmax : max g.upTo (g.applied + 1) = g.applied + 1 := by omega
    rw [hl.config_eq hk hle hs₀, hmax]
    refine ⟨c, hraft, ⟨⟨s, hs⟩, fun n hn => ?_⟩, fun _ => rfl, fun k cc' h₁ h₂ => by omega⟩
    obtain rfl : g.applied = n := by simpa using hn
    rw [hcc]
    rfl
  · have hmem : ⟨g.config, g.upTo⟩ ∈ written g.disk := hl.found ▸ found_mem_written g.disk
    have hmax : max g.upTo (g.applied + 1) = g.upTo := by omega
    rw [hmax]
    refine ⟨g.config, hl.absorbs _ cc le_rfl (by omega) hcc, hk.confs _ hmem, fun h => ?_,
      fun k cc' h₁ h₂ => hl.absorbs k cc' (by omega) h₂⟩
    obtain ⟨s₀, hs₀⟩ := (hk.confs _ hmem).known
    have heq : g.upTo = g.applied + 1 := by omega
    simp only [heq, hs] at hs₀
    cases hs₀
    rfl

/-! ## Applying entries -/

variable (raft seed hist) in
/-- What applying entries up to position `n` may end in: a node that goes on from there, or a fault
of the storage. -/
structure Advances (g : MetadataRaftGroup) (n : Nat) (faults : Prop)
    (r : Bool × MetadataRaftGroup) : Prop where
  kept : Kept raft seed hist r.2
  health : r.2.healthFailed = g.healthFailed
  ok : r.1 = true → Live raft hist r.2 ∧ r.2.applied = n
  failed : r.1 = false → faults

theorem Kept.withConf (hk : Kept raft seed hist g) {w : WrittenConf} {cs : ConfState} {upTo : Nat}
    (hw : ConfAt raft seed hist w) (hlt : g.applied < w.upTo) :
    Kept raft seed hist { g with
      config := cs, upTo := upTo
      disk := { g.disk with unsynced := g.disk.unsynced ++ [w] } } := by
  have hmem : ∀ f ∈ g.disk.synced :: (g.disk.unsynced ++ [w]),
      f ∈ written g.disk ∨ f = w := by
    intro f hf
    rw [← cons_append, mem_append, mem_singleton] at hf
    exact hf
  have hahead (n : Nat) (hn : n ≤ g.applied) :
      ∀ f ∈ g.disk.synced :: (g.disk.unsynced ++ [w]), f ∈ written g.disk ∨ n < f.upTo := by
    intro f hf
    obtain hf | rfl := hmem f hf
    · exact .inl hf
    · exact .inr (by omega)
  refine ⟨hk.snapshot_le, fun f hf => ?_, fun f hf k hkn hchange => ?_,
    hk.state.ahead (hahead _ le_rfl), hk.snapshot.ahead (hahead _ hk.snapshot_le)⟩
  · obtain hf | rfl := hmem f hf
    · exact hk.confs f hf
    · exact hw
  · obtain hf | rfl := hmem f hf
    · exact hk.covers f hf k hkn hchange
    · exact Nat.lt_trans hkn hlt

theorem Kept.applyConfChange (hk : Kept raft seed hist g) (hl : Live raft hist g)
    (hcc : changeAt hist g.applied = some cc)
    (hvalid : (replay raft seed hist (g.applied + 1)).isSome) (io : EntryIo) :
    Advances raft seed hist g (g.applied + 1) (io.writeFails = true ∨ io.syncFails = true)
      (g.applyConfChangeEntry raft io (g.applied + 1) cc) := by
  obtain ⟨⟨s, c⟩, hs⟩ := Option.isSome_iff_exists.1 hvalid
  obtain ⟨cs, hraft, hconf, hcs, habsorbs⟩ := hl.change hk hcc hs
  have hlt : g.applied < max g.upTo (g.applied + 1) := by omega
  simp only [applyConfChangeEntry, hraft]
  rcases hwrite : io.writeFails with _ | _
  · simp only [MetadataDisk.setConfState, Bool.false_eq_true, if_false]
    rcases hsync : io.syncFails with _ | _
    · -- written and synced: the state machine takes the members of the new membership
      have hfound : ({ g.disk with
          unsynced := g.disk.unsynced ++ [⟨cs, max g.upTo (g.applied + 1)⟩] } : MetadataDisk).found
          = ⟨cs, max g.upTo (g.applied + 1)⟩ := by simp [MetadataDisk.found]
      simp only [MetadataDisk.sync, Bool.false_eq_true, if_false, hfound]
      obtain ⟨s₀, c₀, p, hs₀, hp, hstep⟩ := replay_succ hs
      obtain ⟨-, rfl⟩ := entryStep_of_change (by rw [← changeAt_eq hp, hcc]) hstep
      obtain ⟨s₁, c₁, hs₁, hagree, -⟩ := hk.state
      rw [hs₀] at hs₁
      cases hs₁
      have hone : ∀ f ∈ written
          { g.disk with synced := ⟨cs, max g.upTo (g.applied + 1)⟩, unsynced := [] },
          f = ⟨cs, max g.upTo (g.applied + 1)⟩ := fun f hf => mem_singleton.1 hf
      refine ⟨⟨?_, fun f hf => ?_, fun f hf k hk' hchange => ?_, ?_, ?_⟩, rfl,
        fun _ => ⟨⟨rfl, habsorbs⟩, rfl⟩, nofun⟩
      · exact hk.snapshot_le.trans (Nat.le_succ _)
      · exact hone f hf ▸ hconf
      · rw [hone f hf]
        exact lt_of_lt_of_le hk' (le_max_right _ _)
      · -- not ahead of the entry, the new membership is that of a node that never crashed
        rw [StateAt]
        refine ⟨_, c, hs, ?_, fun f hf hle => ?_⟩
        · rw [Agree, hagree.setMembership]
          rfl
        · rw [hone f hf] at hle
          simp only at hle
          rw [hagree.setMembership, hcs (by omega)]
      · refine hk.snapshot.ahead fun f hf => .inr ?_
        rw [hone f hf]
        exact lt_of_le_of_lt hk.snapshot_le hlt
    · exact ⟨hk.withConf hconf hlt, rfl, nofun, fun _ => .inr rfl⟩
  · exact ⟨⟨hk.snapshot_le, hk.confs, hk.covers, hk.state, hk.snapshot⟩, rfl, nofun,
      fun _ => .inl rfl⟩

theorem Kept.applyEntry (hk : Kept raft seed hist g) (hl : Live raft hist g)
    (hp : hist[g.applied]? = some p) (hvalid : (replay raft seed hist (g.applied + 1)).isSome)
    (io : EntryIo) :
    Advances raft seed hist g (g.applied + 1) (io.writeFails = true ∨ io.syncFails = true)
      (g.applyEntry raft io ⟨g.applied + 1, p⟩) := by
  rcases hchange : p.change with _ | cc
  · obtain ⟨a, ha, hstate⟩ := hk.state.succ hp hchange hvalid hk.confs
    have hcovers : ∀ f ∈ written g.disk, ∀ k < g.applied + 1, (changeAt hist k).isSome →
        k < f.upTo := by
      intro f hf k hk' hc
      obtain rfl | hlt := Nat.eq_or_lt_of_le (Nat.le_of_lt_succ hk')
      · rw [changeAt_eq hp, hchange] at hc
        cases hc
      · exact hk.covers f hf k hlt hc
    have hres : g.applyEntry raft io ⟨g.applied + 1, p⟩
        = (true, { g with state := a, applied := g.applied + 1 }) := by
      obtain ⟨rfl, rfl⟩ | ⟨cmd, rfl, rfl⟩ := ha
      · rfl
      · rfl
    rw [hres]
    exact ⟨⟨hk.snapshot_le.trans (Nat.le_succ _), hk.confs, hcovers, hstate, hk.snapshot⟩, rfl,
      fun _ => ⟨⟨hl.found, fun k cc h₁ => hl.absorbs k cc (Nat.le_of_succ_le h₁)⟩, rfl⟩, nofun⟩
  · have hcc : changeAt hist g.applied = some cc := by rw [changeAt_eq hp, hchange]
    have hres : g.applyEntry raft io ⟨g.applied + 1, p⟩
        = g.applyConfChangeEntry raft io (g.applied + 1) cc := by
      cases p with
      | confChangeV1 _ =>
        cases hchange
        rfl
      | confChangeV2 _ =>
        cases hchange
        rfl
      | _ => cases hchange
    rw [hres]
    exact hk.applyConfChange hl hcc hvalid io

/-- Entries as the Raft core delivers them, one index after the other. -/
def numbered : Nat → List EntryPayload → List CommittedEntry
  | _, [] => []
  | i, p :: ps => ⟨i, p⟩ :: numbered (i + 1) ps

/-- Whether the storage fails while entries are applied. -/
def entriesFault (ios : List EntryIo) : Bool := ios.any fun io => io.writeFails || io.syncFails

theorem Kept.applyCommitted {ps : List EntryPayload} (hk : Kept raft seed hist g)
    (hl : Live raft hist g) (hps : ps <+: hist.drop g.applied)
    (hvalid : ∀ n ≤ hist.length, (replay raft seed hist n).isSome) (ios : List EntryIo) :
    Advances raft seed hist g (g.applied + ps.length) (entriesFault ios = true)
      (g.applyCommitted raft ios (numbered (g.applied + 1) ps)) := by
  induction ps generalizing g ios with
  | nil => exact ⟨hk, rfl, fun _ => ⟨hl, rfl⟩, nofun⟩
  | cons p ps ih =>
    have hp : hist[g.applied]? = some p := by
      obtain ⟨t, ht⟩ := hps
      have h₀ : (hist.drop g.applied)[0]? = some p := by
        rw [← ht]
        rfl
      rwa [List.getElem?_drop, Nat.add_zero] at h₀
    have hlen : g.applied < hist.length := (List.getElem?_eq_some_iff.1 hp).1
    have hps' : ps <+: hist.drop (g.applied + 1) := by
      rw [List.drop_eq_getElem_cons hlen] at hps
      exact (List.cons_prefix_cons.1 hps).2
    have hstep := hk.applyEntry hl hp (hvalid _ hlen) (ios.head?.getD .ok)
    have hfault : ((ios.head?.getD .ok).writeFails = true
        ∨ (ios.head?.getD .ok).syncFails = true) → entriesFault ios = true := by
      intro h
      rcases ios with _ | ⟨io, ios⟩
      · simp [EntryIo.ok] at h
      · simp only [List.head?_cons, Option.getD_some] at h
        simp [entriesFault, h]
    rw [numbered, applyCommitted]
    generalize g.applyEntry raft (ios.head?.getD .ok) ⟨g.applied + 1, p⟩ = res at hstep ⊢
    obtain ⟨_ | _, g'⟩ := res
    · exact ⟨hstep.kept, hstep.health, nofun, fun _ => hfault (hstep.failed rfl)⟩
    obtain ⟨hl', happ⟩ := hstep.ok rfl
    simp only at hl' happ
    rw [← happ] at hps'
    have hrest := ih hstep.kept hl' hps' ios.tail
    rw [happ] at hrest
    refine ⟨hrest.kept, hrest.health.trans hstep.health, fun h => ?_, fun h => ?_⟩
    · obtain ⟨hl'', happ'⟩ := hrest.ok h
      exact ⟨hl'', by rw [happ', List.length_cons]; omega⟩
    · obtain ⟨io, hio, hfails⟩ := List.any_eq_true.1 (hrest.failed h)
      exact List.any_eq_true.2 ⟨io, List.mem_of_mem_tail hio, hfails⟩

/-! ## Runs -/

/-- Whether the storage fails in a cycle. -/
def cycleFaults (io : ReadyIo) : Bool :=
  entriesFault io.committed || io.persistFails || io.commitFails || entriesFault io.light

/-- The committed entries after the applied ones: those of this cycle, and those it commits. -/
def delivered (hist : List EntryPayload) (applied k : Nat) : List CommittedEntry :=
  numbered (applied + 1) ((hist.drop applied).take k)

theorem Kept.stop (hk : Kept raft seed hist g) :
    Kept raft seed hist { g with healthFailed := true } :=
  ⟨hk.snapshot_le, hk.confs, hk.covers, hk.state, hk.snapshot⟩

theorem Kept.driveReady (hk : Kept raft seed hist g)
    (hl : g.healthFailed = false → Live raft hist g)
    (hvalid : ∀ n ≤ hist.length, (replay raft seed hist n).isSome) (io : ReadyIo) {k₁ : Nat}
    (hk₁ : g.applied + k₁ ≤ hist.length) (k₂ : Nat) :
    let g' := g.driveReady raft io (delivered hist g.applied k₁)
      (delivered hist (g.applied + k₁) k₂)
    Kept raft seed hist g' ∧ (g'.healthFailed = false → Live raft hist g')
      ∧ (g'.healthFailed = true → g.healthFailed = true ∨ cycleFaults io = true)
      ∧ (g'.healthFailed = false →
        g'.applied = g.applied + k₁ + ((hist.drop (g.applied + k₁)).take k₂).length) := by
  dsimp only
  rw [MetadataRaftGroup.driveReady]
  rcases hhealth : g.healthFailed with _ | _
  · simp only [Bool.false_eq_true, if_false]
    -- the committed entries, the writes, then what these have committed
    have hfirst := hk.applyCommitted (hl hhealth) (List.take_prefix k₁ _) hvalid io.committed
    rw [length_take, length_drop, min_eq_left (by omega)] at hfirst
    rw [driveReadyInner]
    generalize hres : g.applyCommitted raft io.committed (delivered hist g.applied k₁) = res
    rw [← delivered, hres] at hfirst
    obtain ⟨_ | _, g₁⟩ := res
    · have := hfirst.failed rfl
      exact ⟨hfirst.kept.stop, nofun, fun _ => .inr (by simp [cycleFaults, this]), nofun⟩
    · obtain ⟨hl₁, happ⟩ := hfirst.ok rfl
      have hkept := hfirst.kept
      simp only at hl₁ happ hkept ⊢
      rcases hpersist : io.persistFails with _ | _
      · rcases hcommit : io.commitFails with _ | _
        · simp only [Bool.false_eq_true, if_false]
          have hsecond := hkept.applyCommitted hl₁ (List.take_prefix k₂ _) hvalid io.light
          rw [happ, ← delivered] at hsecond
          generalize g₁.applyCommitted raft io.light (delivered hist (g.applied + k₁) k₂) = res
            at hsecond ⊢
          obtain ⟨_ | _, g₂⟩ := res
          · have := hsecond.failed rfl
            exact ⟨hsecond.kept.stop, nofun, fun _ => .inr (by simp [cycleFaults, this]), nofun⟩
          · obtain ⟨hl₂, happ₂⟩ := hsecond.ok rfl
            have hhealth₂ := hsecond.health.trans (hfirst.health.trans hhealth)
            simp only at hl₂ happ₂ hhealth₂ ⊢
            refine ⟨hsecond.kept, fun _ => hl₂, fun h => ?_, fun _ => happ₂⟩
            rw [hhealth₂] at h
            cases h
        · exact ⟨hkept.stop, nofun, fun _ => .inr (by simp [cycleFaults, hcommit]), nofun⟩
      · exact ⟨hkept.stop, nofun, fun _ => .inr (by simp [cycleFaults, hpersist]), nofun⟩
  · simp only [if_true, hhealth]
    exact ⟨hk, nofun, fun _ => .inl trivial, nofun⟩

variable (raft seed) in
/-- A new node on which all the entries of a history are driven in one cycle. -/
def uncrashed (hist : List EntryPayload) : MetadataRaftGroup :=
  (fresh seed).driveReady raft .ok (delivered hist 0 hist.length) []

/-- The committed entries, a node, and whether its storage has ever failed. -/
structure World where
  hist : List EntryPayload
  node : MetadataRaftGroup
  faulted : Bool

/-- The changes above the snapshot that the membership on disk has already leave it as it is. -/
def Absorbed (raft : RaftCore) (hist : List EntryPayload) (d : MetadataDisk) : Prop :=
  ∀ k cc, d.snapshotIndex ≤ k → k < d.found.upTo → changeAt hist k = some cc →
    raft d.found.confState cc = some d.found.confState

variable (raft seed) in
inductive Step : World → World → Prop
  /-- An entry is committed. It decodes, and a node that never crashed accepts it. -/
  | commit {w : World} {p : EntryPayload}
      (haccepted : (replay raft seed (w.hist ++ [p]) (w.hist.length + 1)).isSome) :
      Step w { w with hist := w.hist ++ [p] }
  | drive {w : World} {io : ReadyIo} {k₁ k₂ : Nat} (hk₁ : w.node.applied + k₁ ≤ w.hist.length) :
      Step w { w with
        node := w.node.driveReady raft io (delivered w.hist w.node.applied k₁)
          (delivered w.hist (w.node.applied + k₁) k₂)
        faulted := w.faulted || cycleFaults io }
  | snapshot {w : World} {writeFails : Bool} :
      Step w { w with node := (w.node.createSnapshot writeFails).2 }
  /-- The node crashes at any point and is opened again. -/
  | restart {w : World} {survivors : Nat}
      (habsorbed : Absorbed raft w.hist (w.node.disk.crash survivors)) :
      Step w { w with node := openInner (w.node.disk.crash survivors) }

variable (raft seed) in
abbrev Reach : World → World → Prop := Relation.ReflTransGen (Step raft seed)

variable (seed) in
def World.start : World := ⟨[], fresh seed, false⟩

variable (raft seed) in
structure Inv (w : World) : Prop where
  valid : ∀ n ≤ w.hist.length, (replay raft seed w.hist n).isSome
  kept : Kept raft seed w.hist w.node
  live : w.node.healthFailed = false → Live raft w.hist w.node
  stopped : w.node.healthFailed = true → w.faulted = true

theorem Kept.fresh : Kept raft seed hist (fresh seed) where
  snapshot_le := le_rfl
  confs f hf := by
    rw [mem_singleton.1 hf]
    exact ⟨⟨_, rfl⟩, nofun⟩
  covers _ _ _ hk := absurd hk (Nat.not_lt_zero _)
  state := ⟨_, _, rfl, .refl _, fun _ _ _ => rfl⟩
  snapshot := ⟨_, _, rfl, .refl _, fun _ _ _ => rfl⟩

theorem Live.fresh : Live raft hist (fresh seed) :=
  ⟨rfl, fun _ _ _ hk => absurd hk (Nat.not_lt_zero _)⟩

theorem changeAt_append (more : List EntryPayload) (hn : n < hist.length) :
    changeAt (hist ++ more) n = changeAt hist n := by
  rw [changeAt, changeAt, getElem?_append_left hn]

theorem ConfAt.le {w : WrittenConf} (h : ConfAt raft seed hist w) : w.upTo ≤ hist.length := by
  obtain ⟨s, hs⟩ := h.known
  exact replay_le hs

theorem ConfAt.append {w : WrittenConf} (h : ConfAt raft seed hist w) (more : List EntryPayload) :
    ConfAt raft seed (hist ++ more) w := by
  refine ⟨?_, fun n hn => ?_⟩
  · rw [replay_append more h.le]
    exact h.known
  · have := h.le
    rw [changeAt_append more (by omega)]
    exact h.marks n hn

theorem StateAt.append (h : StateAt raft seed hist n a ws) (more : List EntryPayload) :
    StateAt raft seed (hist ++ more) n a ws := by
  obtain ⟨s, c, hs, hrest⟩ := h
  exact ⟨s, c, (replay_append more (replay_le hs)).trans hs, hrest⟩

theorem Kept.applied_le (hk : Kept raft seed hist g) : g.applied ≤ hist.length := by
  obtain ⟨s, c, hs, -⟩ := hk.state
  exact replay_le hs

theorem Kept.append (hk : Kept raft seed hist g) (more : List EntryPayload) :
    Kept raft seed (hist ++ more) g where
  snapshot_le := hk.snapshot_le
  confs f hf := (hk.confs f hf).append more
  covers f hf k hkn hc := by
    rw [changeAt_append more (lt_of_lt_of_le hkn hk.applied_le)] at hc
    exact hk.covers f hf k hkn hc
  state := hk.state.append more
  snapshot := hk.snapshot.append more

theorem Live.append (hl : Live raft hist g) (hk : Kept raft seed hist g)
    (more : List EntryPayload) : Live raft (hist ++ more) g := by
  refine ⟨hl.found, fun k cc h₁ h₂ hc => hl.absorbs k cc h₁ h₂ ?_⟩
  have hle := (hk.confs _ (found_mem_written g.disk)).le
  rw [hl.found] at hle
  rwa [changeAt_append more (lt_of_lt_of_le h₂ hle)] at hc

theorem createSnapshot_cases (g : MetadataRaftGroup) (writeFails : Bool) :
    (g.createSnapshot writeFails).2 = g
      ∨ (g.createSnapshot writeFails).2 = { g with
        disk := { g.disk with
          snapshotIndex := g.state.appliedIndex, snapshotState := g.state } } := by
  rw [createSnapshot]
  dsimp only
  split
  · exact .inl rfl
  · split
    · exact .inl rfl
    · exact .inr rfl

/-- A snapshot records the state of the position that its applied index names. -/
theorem Kept.createSnapshot (hk : Kept raft seed hist g) (writeFails : Bool) :
    Kept raft seed hist (g.createSnapshot writeFails).2 := by
  obtain heq | heq := createSnapshot_cases g writeFails
  · rwa [heq]
  · rw [heq]
    obtain ⟨s, c, hs, hagree, htrust⟩ := hk.state
    obtain ⟨hle, c', hs'⟩ := replay_appliedIndex hs
    rw [← hagree.appliedIndex] at hle hs'
    exact ⟨hle, hk.confs, hk.covers, hk.state,
      s, c', hs', hagree, fun f hf hf' => htrust f hf (hf'.trans hle)⟩

/-- A restart takes the state machine back to the snapshot. -/
theorem Kept.openInner (hk : Kept raft seed hist g) (survivors : Nat) :
    Kept raft seed hist (openInner (g.disk.crash survivors)) := by
  have hsub : written (g.disk.crash survivors) ⊆ written g.disk :=
    cons_subset_cons _ (take_subset _ _)
  exact ⟨le_rfl, fun f hf => hk.confs f (hsub hf),
    fun f hf k hkn => hk.covers f (hsub hf) k (lt_of_lt_of_le hkn hk.snapshot_le),
    hk.snapshot.shrink hsub, hk.snapshot.shrink hsub⟩

theorem Step.inv {w w' : World} (h : Step raft seed w w') (hi : Inv raft seed w) :
    Inv raft seed w' := by
  cases h with
  | @commit p haccepted =>
    refine ⟨fun n hn => ?_, hi.kept.append _, fun h => (hi.live h).append hi.kept _, hi.stopped⟩
    simp only [length_append, length_singleton] at hn
    obtain rfl | hlt := Nat.eq_or_lt_of_le hn
    · exact haccepted
    · rw [replay_append _ (by omega)]
      exact hi.valid n (by omega)
  | @drive io k₁ k₂ hk₁ =>
    obtain ⟨hk, hl, hstop, -⟩ := hi.kept.driveReady hi.live hi.valid io hk₁ k₂
    refine ⟨hi.valid, hk, hl, fun h => ?_⟩
    obtain h | h := hstop h
    · simp [hi.stopped h]
    · simp [h]
  | @snapshot writeFails =>
    have hkept := hi.kept.createSnapshot writeFails
    obtain heq | heq := createSnapshot_cases w.node writeFails
    · rwa [heq]
    · rw [heq] at hkept ⊢
      exact ⟨hi.valid, hkept, fun h => ⟨(hi.live h).found, (hi.live h).absorbs⟩, hi.stopped⟩
  | @restart survivors habsorbed =>
    exact ⟨hi.valid, hi.kept.openInner survivors, fun _ => ⟨rfl, habsorbed⟩, nofun⟩

theorem Reach.inv {w w' : World} (h : Reach raft seed w w') (hi : Inv raft seed w) :
    Inv raft seed w' := by
  induction h with
  | refl => exact hi
  | tail _ hstep ih => exact hstep.inv ih

theorem Inv.start : Inv raft seed (.start seed) where
  valid n hn := by
    obtain rfl : n = 0 := Nat.le_zero.1 hn
    rfl
  kept := .fresh
  live _ := .fresh
  stopped := nofun

/-- Driving a node to the end of the history, with no fault. -/
theorem Kept.driven (hk : Kept raft seed hist g) (hhealth : g.healthFailed = false)
    (hl : Live raft hist g) (hvalid : ∀ n ≤ hist.length, (replay raft seed hist n).isSome) :
    let g' := g.driveReady raft .ok (delivered hist g.applied (hist.length - g.applied)) []
    g'.healthFailed = false ∧ g'.applied = hist.length
      ∧ replay raft seed hist hist.length = some (g'.state, g'.config) := by
  have hle := hk.applied_le
  have hend : g.applied + (hist.length - g.applied) = hist.length := by omega
  obtain ⟨hk', hl', hstop, happ⟩ :=
    hk.driveReady (fun _ => hl) hvalid .ok (Nat.le_of_eq hend) 0
  rw [show delivered hist (g.applied + (hist.length - g.applied)) 0 = [] from rfl]
    at hk' hl' hstop happ
  dsimp only
  generalize g.driveReady raft .ok (delivered hist g.applied (hist.length - g.applied)) [] = g'
    at hk' hl' hstop happ ⊢
  have hhealth' : g'.healthFailed = false := by
    rcases h : g'.healthFailed with _ | _
    · rfl
    · obtain h | h := hstop h
      · rw [hhealth] at h
        cases h
      · cases h
  have happ' : g'.applied = hist.length := by
    rw [happ hhealth', hend]
    rfl
  refine ⟨hhealth', happ', ?_⟩
  -- at the end of the history no membership lies ahead
  obtain ⟨s, c, hs, hagree, htrust⟩ := hk'.state
  have hmem := found_mem_written g'.disk
  rw [← happ', hs, hagree.eq (htrust _ hmem (happ' ▸ (hk'.confs _ hmem).le)),
    (hl' hhealth').config_eq hk' ?_ hs]
  have := (hk'.confs _ hmem).le
  rwa [(hl' hhealth').found, ← happ'] at this

/-- In every run whose restarts find a membership that the changes above the snapshot leave as it
is, a node stops only if its storage failed. A node that has not stopped, driven to the end of the
committed entries, has the state and the membership that replaying them gives, which are those of a
node that never crashed. -/
theorem restart_catches_up (raft : RaftCore) (seed : ConfState) {w : World}
    (h : Reach raft seed (.start seed) w) :
    (w.node.healthFailed = true → w.faulted = true)
      ∧ (w.node.healthFailed = false →
        let g := w.node.driveReady raft .ok
          (delivered w.hist w.node.applied (w.hist.length - w.node.applied)) []
        g.healthFailed = false ∧ g.applied = w.hist.length
          ∧ replay raft seed w.hist w.hist.length = some (g.state, g.config)
          ∧ g.state = (uncrashed raft seed w.hist).state
          ∧ g.config = (uncrashed raft seed w.hist).config) := by
  have hi := h.inv .start
  refine ⟨hi.stopped, fun hhealth => ?_⟩
  obtain ⟨hok, happ, hend⟩ := hi.kept.driven hhealth (hi.live hhealth) hi.valid
  obtain ⟨-, -, hend'⟩ := Kept.driven (.fresh) rfl .fresh hi.valid
  have heq := hend.symm.trans hend'
  rw [Option.some.injEq, Prod.mk.injEq] at heq
  exact ⟨hok, happ, hend, heq.1, heq.2⟩

end

/-! ## Runs with a Raft core -/

/-- A membership with one change in it. -/
def changeMember (cs : ConfState) (c : ConfChangeSingle) : ConfState :=
  let without := { cs with
    voters := cs.voters.erase c.nodeId
    learners := cs.learners.erase c.nodeId
    learnersNext := cs.learnersNext.erase c.nodeId }
  match c.changeType with
  | .addNode =>
    if c.nodeId ∈ cs.voters then cs
    else { without with voters := cs.voters ++ [c.nodeId] }
  | .removeNode => without
  | .addLearnerNode =>
    if c.nodeId ∈ cs.learners ∨ c.nodeId ∈ cs.learnersNext then cs
    else if c.nodeId ∈ cs.votersOutgoing then
      { without with learnersNext := without.learnersNext ++ [c.nodeId] }
    else { without with learners := without.learners ++ [c.nodeId] }

/-- A Raft core that changes one voter at a time outside of joint configurations, and enters and
leaves these in turn. -/
def raftChanger : RaftCore := fun cs cc =>
  let joint := !cs.votersOutgoing.isEmpty
  if cc.leaveJoint then
    if !joint then none
    else
      some { cs with
        votersOutgoing := []
        learners := cs.learners ++ cs.learnersNext
        learnersNext := []
        autoLeave := false }
  else
    match cc.enterJoint with
    | some autoLeave =>
      if joint || cs.voters.isEmpty then none
      else
        let changed := cc.changes.foldl changeMember { cs with votersOutgoing := cs.voters }
        if changed.voters.isEmpty then none else some { changed with autoLeave := autoLeave }
    | none =>
      let changed := cc.changes.foldl changeMember cs
      let differs := (changed.voters.diff cs.voters ++ cs.voters.diff changed.voters).length
      if joint || changed.voters.isEmpty || decide (1 < differs) then none else some changed

theorem raftChanger_joint {cs : ConfState} {cc : ConfChangeV2} (hjoint : cs.votersOutgoing ≠ [])
    (henter : cc.enterJoint.isSome) : raftChanger cs cc = none := by
  have hleave : cc.leaveJoint = false := by
    rw [ConfChangeV2.enterJoint] at henter
    split at henter
    · next h =>
      rw [ConfChangeV2.leaveJoint, Bool.and_eq_false_iff]
      obtain h | h := h
      · exact .inl (decide_eq_false h)
      · refine .inr ?_
        cases hc : cc.changes with
        | nil =>
          rw [hc] at h
          cases h
        | cons _ _ => rfl
    · cases henter
  obtain ⟨autoLeave, henter⟩ := Option.isSome_iff_exists.1 henter
  simp [raftChanger, hleave, henter, hjoint]

/-- Three voters. -/
def threeVoters : ConfState := ⟨[1, 2, 3], [], [], [], false⟩

/-- A fourth voter is added and a partition placed on it. -/
def growth : List EntryPayload :=
  [.noop, .confChangeV2 ⟨.auto, [⟨4, .addNode⟩]⟩, .command (.placePartition 7 [1, 4] 4 1)]

/-- The node that drove that history. -/
def grown : MetadataRaftGroup :=
  (fresh threeVoters).driveReady raftChanger .ok (delivered growth 0 3) (delivered growth 3 0)

theorem restart_catches_up_growth :
    Absorbed raftChanger growth (grown.disk.crash 0)
      ∧ let node := openInner (grown.disk.crash 0)
        let g := node.driveReady raftChanger .ok (delivered growth 0 3) []
        g.healthFailed = false ∧ g.applied = 3
          ∧ replay raftChanger threeVoters growth 3 = some (g.state, g.config)
          ∧ g.state = (uncrashed raftChanger threeVoters growth).state
          ∧ g.config = (uncrashed raftChanger threeVoters growth).config := by
  have habsorbed : Absorbed raftChanger growth (grown.disk.crash 0) := by
    intro k cc _ hk hc
    have hk' : k < 2 := hk
    obtain rfl | rfl : k = 0 ∨ k = 1 := by omega
    · cases hc
    · cases hc
      decide +kernel
  have hreach : Reach raftChanger threeVoters (.start threeVoters)
      ⟨growth, openInner (grown.disk.crash 0), false⟩ := by
    have h₁ : Step raftChanger threeVoters (.start threeVoters) _ := .commit (p := .noop) rfl
    have h₂ := (Relation.ReflTransGen.single h₁).tail
      (.commit (p := .confChangeV2 ⟨.auto, [⟨4, .addNode⟩]⟩) rfl)
    have h₃ := h₂.tail (.commit (p := .command (.placePartition 7 [1, 4] 4 1)) rfl)
    have h₄ := h₃.tail (@Step.drive _ _ _ .ok 3 0 (Nat.le_refl 3))
    exact h₄.tail (@Step.restart _ _ _ 0 habsorbed)
  exact ⟨habsorbed, (restart_catches_up raftChanger threeVoters hreach).2 rfl⟩

/-- A voter is replaced, which passes through a joint configuration. -/
def replacement : EntryPayload := .confChangeV2 ⟨.auto, [⟨4, .addNode⟩, ⟨1, .removeNode⟩]⟩

/-- The node that has entered the joint configuration and not left it. -/
def insideJoint : MetadataRaftGroup :=
  (fresh threeVoters).driveReady raftChanger .ok (delivered [replacement] 0 1) []

/-- The Raft core refuses to enter a joint configuration twice. The node enters one, crashes and is
opened again. The entry that entered it is delivered again, is refused, and stops the node, while
its storage never failed. -/
theorem restart_inside_joint_stops :
    (∀ cs cc, cs.votersOutgoing ≠ [] → cc.enterJoint.isSome → raftChanger cs cc = none)
      ∧ (replay raftChanger threeVoters [replacement] 1).isSome
      ∧ (uncrashed raftChanger threeVoters [replacement]).healthFailed = false
      ∧ insideJoint.healthFailed = false ∧ insideJoint.applied = 1
      ∧ insideJoint.config.votersOutgoing = [1, 2, 3]
      ∧ (openInner (insideJoint.disk.crash 0)).healthFailed = false
      ∧ ((openInner (insideJoint.disk.crash 0)).driveReady raftChanger .ok
          (delivered [replacement] 0 1) []).healthFailed = true := by
  refine ⟨fun _ _ => raftChanger_joint, rfl, ?_, ?_, ?_, ?_, rfl, ?_⟩ <;> decide +kernel

end MetadataRaftGroup

end IronBus
