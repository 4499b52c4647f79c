import IronBus.Native.MetadataStorage

/-!
# What opening the metadata storage finds

An entry or a state is a record, so the mirror rebuilt from the checkpoint and the records follows.
A snapshot is not: it moves the index from which the records are applied, and the entries it
discards are discarded again only if nothing in the log is above it, or if an entry above it is
still there. The membership of a received snapshot is the last one only if no older state record
follows the checkpoint.

Key results:
- `Step.inv`: the mirror in memory is what opening the storage rebuilds
- `reopen_finds_recent`: an opening finds what was synced, or something more recent
- `append_reach`: a call with several entries is a run of appends
- `snapshot_reclaims_iff`: when a snapshot gives up segments
-/

namespace IronBus

namespace MetadataStorage

open MetadataCore MetadataLogStorage List

/-! ## Records -/

/-- The records this storage writes. -/
inductive Known : MetaRecord → Prop where
  | entry (e : RaftEntry) : Known (.entry e)
  | state (hs : HardState) (cs : ConfState) : Known (.state hs cs)

/-- What a record does to the mirror. -/
def applied (c : MetadataCore) : MetaRecord → MetadataCore
  | .entry e => c.mirrorEntry e
  | .state hs cs =>
    { c with
      hardState := ⟨max hs.term c.hardState.term, hs.vote, max hs.commit c.hardState.commit⟩
      confState := cs }
  | _ => c

variable {c : MetadataCore} {i : Nat} {es : List RaftEntry} {e : RaftEntry}
  {s : MetadataLogStorage} {front : List MetaRecord}

theorem replayInto_known {rs : List MetaRecord} (h : ∀ r ∈ rs, Known r) (c : MetadataCore) :
    c.replayInto rs = .ok (rs.foldl applied c) := by
  induction rs generalizing c with
  | nil => rfl
  | cons r rs ih =>
    have hrs := ih (fun r' hr' => h r' (mem_cons_of_mem _ hr'))
    cases h r mem_cons_self with
    | entry e => exact hrs _
    | state hs cs => exact hrs _

/-- The mirror before any record of the log is applied. -/
def base (checkpoint : Option RaftSnapshot) : MetadataCore :=
  match checkpoint with
  | some s => (empty.applySnapshot s).2
  | none => empty

/-- The mirror that opening the storage rebuilds. -/
def rebuilt (seed : List Nat) (checkpoint : Option RaftSnapshot) (rs : List MetaRecord) :
    MetadataCore :=
  (rs.foldl applied (base checkpoint)).seedVoters seed

theorem reopen_known {log : RecordLog MetaRecord} (h : ∀ r ∈ log.records, Known r) (earliest : Nat)
    (checkpoint : Option RaftSnapshot) (seed : List Nat) :
    reopen log earliest checkpoint seed = .ok ⟨log, earliest,
      log.records.length, rebuilt seed checkpoint log.records, checkpoint⟩ := by
  cases checkpoint with
  | none =>
    simp only [reopen, replayInto_known h]
    rfl
  | some s =>
    simp only [reopen, replayInto_known h]
    rfl

/-! ## Hard state and membership -/

/-- The last state record. -/
def lastState (rs : List MetaRecord) : Option (HardState × ConfState) :=
  rs.foldl (fun o r => match r with
    | .state hs cs => some (hs, cs)
    | _ => o) none

/-- The highest term of a state record. -/
def maxTerm (rs : List MetaRecord) : Nat :=
  rs.foldl (fun t r => match r with
    | .state hs _ => max t hs.term
    | _ => t) 0

/-- The highest commit index of a state record. -/
def maxCommit (rs : List MetaRecord) : Nat :=
  rs.foldl (fun t r => match r with
    | .state hs _ => max t hs.commit
    | _ => t) 0

theorem foldl_hardState (rs : List MetaRecord) (c : MetadataCore) :
    (rs.foldl applied c).hardState = ⟨max c.hardState.term (maxTerm rs),
      ((lastState rs).map (·.1.vote)).getD c.hardState.vote,
      max c.hardState.commit (maxCommit rs)⟩ := by
  induction rs using reverseRecOn with
  | nil => simp [maxTerm, maxCommit, lastState]
  | append_singleton rs r ih =>
    simp only [foldl_append, foldl_cons, foldl_nil, maxTerm, maxCommit, lastState]
      at ih ⊢
    cases r with
    | state hs cs =>
      simp only [applied, ih, Option.map_some, Option.getD_some, HardState.mk.injEq, true_and]
      omega
    | entry e =>
      simp only [applied, mirrorEntry]
      split <;> exact ih
    | _ => exact ih

theorem foldl_confState (rs : List MetaRecord) (c : MetadataCore) :
    (rs.foldl applied c).confState = ((lastState rs).map (·.2)).getD c.confState := by
  induction rs using reverseRecOn with
  | nil => rfl
  | append_singleton rs r ih =>
    simp only [foldl_append, foldl_cons, foldl_nil, lastState] at ih ⊢
    cases r with
    | state hs cs => rfl
    | entry e =>
      simp only [applied, mirrorEntry]
      split <;> exact ih
    | _ => exact ih

/-! ## Entries -/

/-- The index of the first of some entries above a snapshot. -/
def first (i : Nat) (es : List RaftEntry) : Nat :=
  match es.head? with
  | some e => e.index
  | none => i + 1

/-- Takes an entry in place of those at and above its index. -/
def mirror (i : Nat) (es : List RaftEntry) (e : RaftEntry) : List RaftEntry :=
  if e.index < first i es then es else es.take (e.index - first i es) ++ [e]

/-- The entries above an index that the records of a log leave. -/
def entriesAbove (i : Nat) (rs : List MetaRecord) : List RaftEntry :=
  rs.foldl (fun es r => match r with
    | .entry e => mirror i es e
    | _ => es) []

theorem mirrorEntry_eq (c : MetadataCore) (e : RaftEntry) :
    c.mirrorEntry e = { c with entries := mirror c.snapshotIndex c.entries e } := by
  unfold mirrorEntry mirror
  change (if e.index < first c.snapshotIndex c.entries then c else _) = _
  split <;> rfl

/-- What the records of a log leave of the rest of the mirror. -/
theorem foldl_snapshot (rs : List MetaRecord) (hc : c.entries = []) :
    (rs.foldl applied c).snapshotIndex = c.snapshotIndex
      ∧ (rs.foldl applied c).snapshotTerm = c.snapshotTerm
      ∧ (rs.foldl applied c).snapshotData = c.snapshotData
      ∧ (rs.foldl applied c).entries = entriesAbove c.snapshotIndex rs := by
  induction rs using reverseRecOn with
  | nil => exact ⟨rfl, rfl, rfl, hc⟩
  | append_singleton rs r ih =>
    obtain ⟨hindex, hterm, hdata, hentries⟩ := ih
    simp only [foldl_append, foldl_cons, foldl_nil, entriesAbove] at hentries ⊢
    cases r with
    | entry e =>
      simp only [applied, mirrorEntry_eq, hindex, hentries]
      exact ⟨trivial, hterm, hdata, trivial⟩
    | _ => exact ⟨hindex, hterm, hdata, hentries⟩

theorem entriesAbove_snoc (i : Nat) (rs : List MetaRecord) (e : RaftEntry) :
    entriesAbove i (rs ++ [.entry e]) = mirror i (entriesAbove i rs) e := by
  simp [entriesAbove]

theorem entriesAbove_snoc_state (i : Nat) (rs : List MetaRecord) (hs : HardState) (cs : ConfState) :
    entriesAbove i (rs ++ [.state hs cs]) = entriesAbove i rs := by
  simp [entriesAbove]

/-- Entries above an index start right above it. -/
def Starts (i : Nat) (es : List RaftEntry) : Prop := ∀ e, es.head? = some e → e.index = i + 1

theorem Starts.nil (i : Nat) : Starts i [] := by
  intro e he
  exact nomatch he

theorem first_eq (h : Starts i es) : first i es = i + 1 := by
  unfold first
  split
  · rename_i e he
    exact h e he
  · rfl

theorem mirror_eq (h : Starts i es) (e : RaftEntry) :
    mirror i es e = if e.index ≤ i then es else es.take (e.index - (i + 1)) ++ [e] := by
  unfold mirror
  rw [first_eq h]
  simp only [Nat.lt_succ_iff]

/-- Records at or below an index leave nothing above it. -/
theorem entriesAbove_eq_nil {rs : List MetaRecord}
    (h : ∀ e, MetaRecord.entry e ∈ rs → e.index ≤ i) : entriesAbove i rs = [] := by
  induction rs using reverseRecOn with
  | nil => rfl
  | append_singleton rs r ih =>
    have hnil := ih fun e he => h e (mem_append_left _ he)
    cases r with
    | entry e =>
      have hle := h e (mem_append_right _ (mem_singleton.mpr rfl))
      rw [entriesAbove_snoc, hnil, mirror_eq (Starts.nil i), if_pos hle]
    | _ => simpa [entriesAbove] using hnil

/-- The entries of a log that starts above a snapshot, and what the same records leave above any
later index. As long as an entry above the later index is there, it is the rest of the entries. -/
structure Rebased (s : Nat) (rs : List MetaRecord) : Prop where
  starts : ∀ i, s ≤ i → Starts i (entriesAbove i rs)
  rest : ∀ i, s ≤ i → i < s + (entriesAbove s rs).length →
    entriesAbove i rs = (entriesAbove s rs).drop (i - s)

theorem Rebased.nil (s : Nat) : Rebased s [] :=
  ⟨fun i _ => Starts.nil i, fun i hi hlt => by simp [entriesAbove] at hlt; omega⟩

theorem Rebased.snoc_state {s : Nat} {rs : List MetaRecord} (h : Rebased s rs) (hs : HardState)
    (cs : ConfState) : Rebased s (rs ++ [.state hs cs]) := by
  refine ⟨fun i hi => ?_, fun i hi hlt => ?_⟩
  · rw [entriesAbove_snoc_state]
    exact h.starts i hi
  · rw [entriesAbove_snoc_state] at hlt
    rw [entriesAbove_snoc_state, entriesAbove_snoc_state]
    exact h.rest i hi hlt

/-- An entry that leaves no gap behind the entries. -/
theorem Rebased.snoc_entry {s : Nat} {rs : List MetaRecord} (h : Rebased s rs)
    (he : e.index ≤ s + (entriesAbove s rs).length + 1) : Rebased s (rs ++ [.entry e]) := by
  have hown := mirror_eq (h.starts s (Nat.le_refl s)) e
  refine ⟨fun i hi => ?_, fun i hi hlt => ?_⟩
  · rw [entriesAbove_snoc, mirror_eq (h.starts i hi)]
    split_ifs with habove
    · exact h.starts i hi
    intro x hx
    rcases Nat.eq_or_lt_of_le (not_le.mp habove) with hnext | hfar
    · -- it is the first entry above the index
      rw [← hnext, Nat.sub_self, take_zero, nil_append] at hx
      cases hx
      exact hnext.symm
    · -- the entries before it are still there
      have hrest := h.rest i hi (by omega)
      have hne : entriesAbove i rs ≠ [] := by
        rw [hrest, ne_eq, drop_eq_nil_iff]
        omega
      obtain ⟨y, ys, hys⟩ := exists_cons_of_ne_nil hne
      obtain ⟨k, hk⟩ : ∃ k, e.index - (i + 1) = k + 1 := ⟨e.index - (i + 1) - 1, by omega⟩
      rw [hys, hk] at hx
      refine h.starts i hi x ?_
      rw [hys]
      exact hx
  · rw [entriesAbove_snoc, hown] at hlt
    rw [entriesAbove_snoc, entriesAbove_snoc, hown, mirror_eq (h.starts i hi)]
    by_cases hbelow : e.index ≤ s
    · rw [if_pos hbelow] at hlt ⊢
      rw [if_pos (hbelow.trans hi)]
      exact h.rest i hi hlt
    · rw [if_neg hbelow] at hlt ⊢
      rw [length_append, length_take, length_singleton] at hlt
      have hgt : i < e.index := by omega
      rw [if_neg (by omega), drop_append_of_le_length (by rw [length_take]; omega),
        append_left_inj, drop_take]
      rcases lt_or_ge i (s + (entriesAbove s rs).length) with hin | hout
      · rw [h.rest i hi hin]
        congr 1
        omega
      · have hnext : e.index = i + 1 := by omega
        rw [hnext, Nat.sub_self, show i + 1 - (s + 1) - (i - s) = 0 by omega, take_zero,
          take_zero]

/-- Taking a later index as the snapshot keeps this. -/
theorem Rebased.later {s : Nat} {rs : List MetaRecord} (h : Rebased s rs) (hi : s ≤ i)
    (hkept : i < s + (entriesAbove s rs).length ∨ entriesAbove i rs = []) : Rebased i rs := by
  refine ⟨fun j hj => h.starts j (hi.trans hj), fun j hj hlt => ?_⟩
  rcases hkept with hin | hnil
  · rw [h.rest i hi hin] at hlt ⊢
    rw [length_drop] at hlt
    rw [h.rest j (hi.trans hj) (by omega), drop_drop]
    congr 1
    omega
  · rw [hnil] at hlt
    simp at hlt
    omega

/-! ## The rebuilt mirror -/

/-- Entries are contiguous from the snapshot on, and terms do not go back. -/
structure Wf (c : MetadataCore) : Prop where
  contiguous : ∀ k e, c.entries[k]? = some e → e.index = c.snapshotIndex + 1 + k
  terms : (c.snapshotTerm :: c.entries.map (·.term)).Pairwise (· ≤ ·)

theorem Wf.firstIndex_eq (h : Wf c) : c.firstIndex = c.snapshotIndex + 1 := by
  unfold firstIndex
  split
  · rename_i e he
    rw [head?_eq_getElem?] at he
    exact h.contiguous 0 e he
  · rfl

theorem Wf.lastIndex_eq (h : Wf c) :
    c.lastIndex = c.snapshotIndex + c.entries.length := by
  unfold lastIndex
  split
  · rename_i e he
    rw [getLast?_eq_getElem?] at he
    have hpos : 0 < c.entries.length := by
      have := (List.getElem?_eq_some_iff.mp he).1
      omega
    rw [h.contiguous _ e he]
    omega
  · rename_i hnone
    rw [getLast?_eq_none_iff.mp hnone]
    rfl

/-- The mirror with its membership filled in. -/
structure Sound (seed : List Nat) (checkpoint : Option RaftSnapshot) (rs : List MetaRecord) :
    Prop where
  known : ∀ r ∈ rs, Known r
  wf : Wf (rebuilt seed checkpoint rs)
  rebased : Rebased (base checkpoint).snapshotIndex rs

variable {seed : List Nat} {checkpoint : Option RaftSnapshot} {rs : List MetaRecord}

theorem base_entries (checkpoint : Option RaftSnapshot) : (base checkpoint).entries = [] := by
  cases checkpoint with
  | none => rfl
  | some s =>
    simp only [base, applySnapshot]
    split <;> rfl

theorem seedVoters_fields (c : MetadataCore) (seed : List Nat) :
    (c.seedVoters seed).hardState = c.hardState ∧ (c.seedVoters seed).entries = c.entries
      ∧ (c.seedVoters seed).snapshotIndex = c.snapshotIndex
      ∧ (c.seedVoters seed).snapshotTerm = c.snapshotTerm
      ∧ (c.seedVoters seed).snapshotData = c.snapshotData := by
  unfold seedVoters
  split <;> exact ⟨rfl, rfl, rfl, rfl, rfl⟩

/-- The rebuilt mirror above its hard state and membership. -/
theorem rebuilt_fields :
    (rebuilt seed checkpoint rs).snapshotIndex = (base checkpoint).snapshotIndex
    ∧ (rebuilt seed checkpoint rs).snapshotTerm = (base checkpoint).snapshotTerm
    ∧ (rebuilt seed checkpoint rs).snapshotData = (base checkpoint).snapshotData
    ∧ (rebuilt seed checkpoint rs).entries = entriesAbove (base checkpoint).snapshotIndex rs := by
  obtain ⟨-, hentries, hindex, hterm, hdata⟩ :=
    seedVoters_fields (rs.foldl applied (base checkpoint)) seed
  unfold rebuilt
  rw [hentries, hindex, hterm, hdata]
  exact foldl_snapshot rs (base_entries checkpoint)

theorem rebuilt_hardState_eq : (rebuilt seed checkpoint rs).hardState
    = ⟨max (base checkpoint).hardState.term (maxTerm rs),
      ((lastState rs).map (·.1.vote)).getD (base checkpoint).hardState.vote,
      max (base checkpoint).hardState.commit (maxCommit rs)⟩ := by
  rw [rebuilt, (seedVoters_fields _ seed).1, foldl_hardState]

/-- A membership with the voters of a new group in place of an empty one. -/
def seeded (seed : List Nat) (cs : ConfState) : ConfState :=
  if cs.voters = [] ∧ cs.learners = [] then { cs with voters := seed } else cs

theorem seeded_seeded (seed : List Nat) (cs : ConfState) :
    seeded seed (seeded seed cs) = seeded seed cs := by
  unfold seeded
  split
  · split <;> rfl
  · rfl

theorem rebuilt_confState : (rebuilt seed checkpoint rs).confState
    = seeded seed (((lastState rs).map (·.2)).getD (base checkpoint).confState) := by
  rw [← foldl_confState, rebuilt, seedVoters, seeded]
  split <;> rfl

/-- An entry that is appended is what is rebuilt. -/
theorem rebuilt_append (e : RaftEntry) : rebuilt seed checkpoint (rs ++ [.entry e])
    = (rebuilt seed checkpoint rs).mirrorEntry e := by
  rw [rebuilt, foldl_append, foldl_cons, foldl_nil, applied, mirrorEntry_eq,
    mirrorEntry_eq, rebuilt, (seedVoters_fields _ seed).2.1, (seedVoters_fields _ seed).2.2.1,
    seedVoters, seedVoters]
  split <;> rfl

/-- What a state record does to the rebuilt mirror. -/
theorem rebuilt_state (hs : HardState) (cs : ConfState) :
    rebuilt seed checkpoint (rs ++ [.state hs cs])
      = { rebuilt seed checkpoint rs with
          hardState := ⟨max hs.term (rebuilt seed checkpoint rs).hardState.term, hs.vote,
            max hs.commit (rebuilt seed checkpoint rs).hardState.commit⟩
          confState := seeded seed cs } := by
  rw [rebuilt, foldl_append, foldl_cons, foldl_nil, applied]
  unfold rebuilt
  generalize rs.foldl applied (base checkpoint) = c
  rw [(seedVoters_fields c seed).1]
  simp only [seedVoters, seeded]
  split <;> split <;> rfl

/-- A hard state that does not go back is what is rebuilt. -/
theorem rebuilt_hardState {hs : HardState}
    (hterm : (rebuilt seed checkpoint rs).hardState.term ≤ hs.term)
    (hcommit : (rebuilt seed checkpoint rs).hardState.commit ≤ hs.commit) :
    rebuilt seed checkpoint (rs ++ [.state hs (rebuilt seed checkpoint rs).confState])
      = { rebuilt seed checkpoint rs with hardState := hs } := by
  have hcs : seeded seed (rebuilt seed checkpoint rs).confState
      = (rebuilt seed checkpoint rs).confState := by
    rw [rebuilt_confState, seeded_seeded]
  rw [rebuilt_state, max_eq_left hterm, max_eq_left hcommit, hcs]

/-- So is a membership that is not empty. -/
theorem rebuilt_confState_append {cs : ConfState} (hcs : cs.voters ≠ [] ∨ cs.learners ≠ []) :
    rebuilt seed checkpoint (rs ++ [.state (rebuilt seed checkpoint rs).hardState cs])
      = { rebuilt seed checkpoint rs with confState := cs } := by
  have hfull : seeded seed cs = cs := by
    rw [seeded, if_neg fun h => hcs.elim (· h.1) (· h.2)]
  rw [rebuilt_state, max_self, max_self, hfull]

/-- The mirror a snapshot starts from. -/
theorem base_some {s : RaftSnapshot} (h : 0 < s.index) : base (some s)
    = ⟨⟨s.term, 0, s.index⟩, s.confState, [], s.index, s.term, s.data⟩ := by
  have hnot : ¬ s.index < empty.firstIndex := by
    change ¬ s.index < 1
    omega
  simp only [base, applySnapshot, if_neg hnot]
  congr 2

theorem base_hardState (checkpoint : Option RaftSnapshot) :
    (base checkpoint).hardState
      = ⟨(base checkpoint).snapshotTerm, 0, (base checkpoint).snapshotIndex⟩ := by
  cases checkpoint with
  | none => rfl
  | some s =>
    rcases Nat.eq_zero_or_pos s.index with hzero | hpos
    · have hlt : s.index < empty.firstIndex := by
        rw [hzero]
        exact Nat.zero_lt_one
      simp only [base, applySnapshot, if_pos hlt]
      rfl
    · rw [base_some hpos]

/-- The hard state of a rebuilt mirror: the highest of what the snapshot and the state records say,
and the last vote. -/
theorem hardState_of_rebuilt (hc : c = rebuilt seed checkpoint rs) :
    c.hardState = ⟨max c.snapshotTerm (maxTerm rs), ((lastState rs).map (·.1.vote)).getD 0,
      max c.snapshotIndex (maxCommit rs)⟩ := by
  rw [hc, rebuilt_fields.1, rebuilt_fields.2.1, rebuilt_hardState_eq, base_hardState]

/-- The hard state and membership that are rebuilt over a snapshot. -/
theorem rebuilt_over {s : RaftSnapshot} (hpos : 0 < s.index) :
    (rebuilt seed (some s) rs).hardState = ⟨max s.term (maxTerm rs),
        ((lastState rs).map (·.1.vote)).getD 0, max s.index (maxCommit rs)⟩
      ∧ (rebuilt seed (some s) rs).confState
        = seeded seed (((lastState rs).map (·.2)).getD s.confState)
      ∧ (rebuilt seed (some s) rs).entries = entriesAbove s.index rs
      ∧ (rebuilt seed (some s) rs).snapshotIndex = s.index
      ∧ (rebuilt seed (some s) rs).snapshotTerm = s.term
      ∧ (rebuilt seed (some s) rs).snapshotData = s.data := by
  obtain ⟨hindex, hterm, hdata, hentries⟩ := @rebuilt_fields seed (some s) rs
  rw [rebuilt_hardState_eq, rebuilt_confState, hentries, hindex, hterm, hdata, base_some hpos]
  exact ⟨rfl, rfl, rfl, rfl, rfl, rfl⟩

/-- The entries above an index at which there is one. -/
theorem Wf.drop (h : Wf c) {pos : Nat} (he : c.entries[pos]? = some e) {c' : MetadataCore}
    (hentries : c'.entries = c.entries.drop (pos + 1)) (hindex : c'.snapshotIndex = e.index)
    (hterm : c'.snapshotTerm = e.term) : Wf c' := by
  have hat := h.contiguous pos e he
  refine ⟨fun k x hx => ?_, ?_⟩
  · rw [hentries, getElem?_drop] at hx
    rw [h.contiguous _ x hx, hindex, hat]
    omega
  · have hdrop : c.entries.drop pos = e :: c.entries.drop (pos + 1) := by
      obtain ⟨hlt, rfl⟩ := List.getElem?_eq_some_iff.mp he
      exact List.drop_eq_getElem_cons hlt
    have hsub : (c'.snapshotTerm :: c'.entries.map (·.term)).Sublist
        (c.snapshotTerm :: c.entries.map (·.term)) := by
      refine List.Sublist.cons _ ?_
      rw [hentries, hterm, ← map_cons, ← hdrop]
      exact (drop_sublist pos c.entries).map _
    exact h.terms.sublist hsub

/-- What soundness says of the mirror in memory. -/
theorem Sound.mirror (h : Sound seed checkpoint rs) (hc : c = rebuilt seed checkpoint rs) :
    Wf c ∧ (base checkpoint).snapshotIndex = c.snapshotIndex ∧ Rebased c.snapshotIndex rs
      ∧ entriesAbove c.snapshotIndex rs = c.entries := by
  obtain ⟨hindex, -, -, hentries⟩ := @rebuilt_fields seed checkpoint rs
  rw [hc, hindex, hentries]
  exact ⟨h.wf, rfl, h.rebased, rfl⟩

/-- A snapshot of the applied state is what is rebuilt if an entry above it is left, or nothing in
the log is above it. -/
theorem rebuilt_snapshot (data : Bytes) (h : Sound seed checkpoint rs) {index term : Nat}
    (hc : c = rebuilt seed checkpoint rs) (hnew : c.snapshotIndex < index)
    (hcommit : index ≤ c.hardState.commit) (hterm : c.termAt index = some term)
    (hle : term ≤ c.hardState.term)
    (hkept : index < c.lastIndex ∨ ∀ e, MetaRecord.entry e ∈ rs → e.index ≤ index) :
    ∃ c', c.compact (index + 1) = some c'
      ∧ rebuilt seed (some ⟨index, term, c.confState, data⟩) rs = { c' with snapshotData := data }
      ∧ Sound seed (some ⟨index, term, c.confState, data⟩) rs := by
  obtain ⟨hwf, -, hreb, hentries⟩ := h.mirror hc
  have hfirst := hwf.firstIndex_eq
  have hlast := hwf.lastIndex_eq
  -- the entry the snapshot ends with
  obtain ⟨e, he, rfl⟩ : ∃ e, c.entries[index - (c.snapshotIndex + 1)]? = some e
      ∧ e.term = term := by
    rw [termAt, if_neg (by omega), if_neg (by omega), hfirst] at hterm
    exact Option.map_eq_some_iff.mp hterm
  have hat : e.index = index := by
    rw [hwf.contiguous _ e he]
    omega
  have hpos : 0 < index := by omega
  -- what the log leaves above it
  have hrest : entriesAbove index rs = c.entries.drop (index - (c.snapshotIndex + 1) + 1)
      ∧ (index < c.snapshotIndex + (entriesAbove c.snapshotIndex rs).length
        ∨ entriesAbove index rs = []) := by
    by_cases hin : index < c.lastIndex
    · have hin' : index < c.snapshotIndex + (entriesAbove c.snapshotIndex rs).length := by
        rw [hentries, ← hlast]
        exact hin
      refine ⟨?_, .inl hin'⟩
      rw [hreb.rest index hnew.le hin', hentries]
      congr 1
      omega
    · have hnil := entriesAbove_eq_nil (hkept.resolve_left hin)
      refine ⟨?_, .inr hnil⟩
      rw [hnil, drop_of_length_le (by omega)]
  obtain ⟨hhs, hcs, hes, hidx, htm, hdat⟩ :=
    @rebuilt_over seed rs ⟨index, e.term, c.confState, data⟩ hpos
  refine ⟨{ c with
      snapshotTerm := e.term
      snapshotIndex := index
      entries := c.entries.drop (index - (c.snapshotIndex + 1) + 1) }, ?_, ?_, h.known, ?_, ?_⟩
  · rw [compact, hfirst]
    simp only
    rw [if_neg (by omega), Nat.add_sub_cancel, he, Option.map_some]
  · have hold := hardState_of_rebuilt hc
    have hmono : c.snapshotTerm ≤ e.term := by
      refine (pairwise_cons.mp hwf.terms).1 _ ?_
      exact mem_map.mpr ⟨e, mem_of_getElem? he, rfl⟩
    have holdcs : c.confState = seeded seed (((lastState rs).map (·.2)).getD
        (base checkpoint).confState) := by rw [hc, rebuilt_confState]
    rw [hold] at hcommit hle
    simp only at hcommit hle
    refine MetadataCore.ext (HardState.ext ?_ ?_ ?_) ?_ (hes.trans hrest.1) hidx htm hdat
    · rw [hhs, hold]
      simp only
      omega
    · rw [hhs, hold]
    · rw [hhs, hold]
      simp only
      omega
    · rw [hcs]
      simp only
      cases hstate : lastState rs with
      | none =>
        rw [holdcs, hstate]
        simp only [Option.map_none, Option.getD_none]
        rw [seeded_seeded]
      | some st =>
        rw [holdcs, hstate]
        rfl
  · refine hwf.drop he (hes.trans hrest.1) (hidx.trans hat.symm) htm
  · rw [base_some hpos]
    exact hreb.later hnew.le hrest.2

/-- A received snapshot is what is rebuilt if nothing in the log is above it and no state record has
another membership. -/
theorem rebuilt_received (h : Sound seed checkpoint rs) (hc : c = rebuilt seed checkpoint rs)
    {s : RaftSnapshot} (hnew : ¬ s.index < c.firstIndex) (hcommit : c.hardState.commit ≤ s.index)
    (hterm : c.snapshotTerm ≤ s.term)
    (hfull : s.confState.voters ≠ [] ∨ s.confState.learners ≠ [])
    (hentries : ∀ e, MetaRecord.entry e ∈ rs → e.index ≤ s.index)
    (hmember : ∀ hs cs, lastState rs = some (hs, cs) → cs = s.confState) :
    rebuilt seed (some s) rs = (c.applySnapshot s).2 ∧ Sound seed (some s) rs := by
  obtain ⟨hwf, -, hreb, -⟩ := h.mirror hc
  have hle : c.snapshotIndex + 1 ≤ s.index := by
    rw [← hwf.firstIndex_eq]
    omega
  have hnil := entriesAbove_eq_nil hentries
  obtain ⟨hhs, hcs, hes, hidx, htm, hdat⟩ := @rebuilt_over seed rs s (by omega)
  have hold := hardState_of_rebuilt hc
  have hcs' : (rebuilt seed (some s) rs).confState = s.confState := by
    have hseed : seeded seed s.confState = s.confState := by
      rw [seeded, if_neg fun h => hfull.elim (· h.1) (· h.2)]
    rw [hcs]
    cases hstate : lastState rs with
    | none => exact hseed
    | some st =>
      obtain ⟨hs, cs⟩ := st
      simp only [Option.map_some, Option.getD_some]
      rw [hmember hs cs hstate, hseed]
  rw [hold] at hcommit
  simp only at hcommit
  refine ⟨?_, h.known, ⟨?_, ?_⟩, ?_⟩
  · rw [applySnapshot, if_neg hnew]
    refine MetadataCore.ext (HardState.ext ?_ ?_ ?_) hcs' (hes.trans hnil) hidx htm hdat
    · rw [hhs, hold]
      simp only
      omega
    · rw [hhs, hold]
    · rw [hhs]
      simp only
      omega
  · intro k x hx
    rw [hes, hnil] at hx
    exact nomatch hx
  · rw [hes, hnil]
    exact pairwise_singleton _ _
  · rw [base_some (by omega)]
    exact hreb.later (Nat.le_of_succ_le hle) (.inr hnil)

/-- The terms before an index are at most what the term right before it is at most. -/
theorem Wf.le_term (h : Wf c) {idx bound : Nat} (hlo : c.snapshotIndex < idx)
    (hhi : idx ≤ c.snapshotIndex + c.entries.length + 1)
    (hbound : ∀ t, c.termAt (idx - 1) = some t → t ≤ bound) :
    ∀ x ∈ c.snapshotTerm :: (c.entries.take (idx - (c.snapshotIndex + 1))).map (·.term),
      x ≤ bound := by
  rcases Nat.eq_zero_or_pos (idx - (c.snapshotIndex + 1)) with hzero | hpos
  · rw [hzero, take_zero, map_nil]
    intro x hx
    rw [mem_singleton.mp hx]
    refine hbound _ ?_
    rw [termAt, if_pos (by omega)]
  · obtain ⟨n, hn⟩ : ∃ n, idx - (c.snapshotIndex + 1) = n + 1 :=
      ⟨_, (Nat.succ_pred_eq_of_pos hpos).symm⟩
    have hlt : n < c.entries.length := by omega
    have hlast : c.entries[n]? = some c.entries[n] := getElem?_eq_getElem hlt
    have hle : c.entries[n].term ≤ bound := by
      refine hbound _ ?_
      rw [termAt, if_neg (by omega), h.firstIndex_eq, if_neg (by omega),
        show idx - 1 - (c.snapshotIndex + 1) = n by omega, hlast, Option.map_some]
    have htake : c.entries.take (n + 1) = c.entries.take n ++ [c.entries[n]] := by
      rw [take_add_one, hlast, Option.toList_some]
    have hsorted : ((c.snapshotTerm :: (c.entries.take n).map (·.term))
        ++ [c.entries[n].term]).Pairwise (· ≤ ·) := by
      refine h.terms.sublist ?_
      rw [cons_append]
      refine List.Sublist.cons_cons _ ?_
      have := (take_sublist (n + 1) c.entries).map (·.term)
      rwa [htake, map_append, map_cons, map_nil] at this
    intro x hx
    rw [hn, htake, map_append, ← cons_append] at hx
    rcases mem_append.mp hx with hx | hx
    · exact ((pairwise_append.mp hsorted).2.2 x hx _ (mem_singleton.mpr rfl)).trans hle
    · rw [map_cons, map_nil] at hx
      rw [mem_singleton.mp hx]
      exact hle

/-- An entry that continues the entries keeps the mirror sound. -/
theorem Sound.append (h : Sound seed checkpoint rs) (hc : c = rebuilt seed checkpoint rs)
    (hindex : e.index ≤ c.lastIndex + 1)
    (hterm : ∀ t, c.termAt (e.index - 1) = some t → t ≤ e.term) :
    Sound seed checkpoint (rs ++ [.entry e]) := by
  obtain ⟨hwf, hbase, hreb, hentries⟩ := h.mirror hc
  have hfirst := hwf.firstIndex_eq
  rw [hwf.lastIndex_eq] at hindex
  refine ⟨forall_mem_append.2 ⟨h.known, forall_mem_singleton.2 (.entry e)⟩, ?_, ?_⟩
  · rw [rebuilt_append, ← hc, mirrorEntry, hfirst]
    split_ifs with habove
    · exact hwf
    refine ⟨fun k x hx => ?_, ?_⟩
    · simp only at hx ⊢
      rcases lt_or_ge k (c.entries.take (e.index - (c.snapshotIndex + 1))).length with hk | hk
      · rw [getElem?_append_left hk] at hx
        rw [length_take] at hk
        rw [getElem?_take_of_lt (by omega)] at hx
        exact hwf.contiguous k x hx
      · rw [getElem?_append_right hk] at hx
        obtain ⟨hz, rfl⟩ := List.getElem?_eq_some_iff.mp hx
        rw [List.length_take] at hk hz
        simp only [List.length_singleton, List.getElem_singleton] at hz ⊢
        omega
    · -- the terms before it are those of the entry right before it at most
      have hbefore : ∀ x ∈ c.snapshotTerm
          :: (c.entries.take (e.index - (c.snapshotIndex + 1))).map (·.term), x ≤ e.term :=
        hwf.le_term (by omega) (by omega) hterm
      simp only [map_append, map_cons, map_nil]
      rw [← cons_append, pairwise_append]
      refine ⟨?_, pairwise_singleton _ _, fun x hx y hy => ?_⟩
      · refine hwf.terms.sublist (List.Sublist.cons_cons _ ?_)
        exact (take_sublist _ _).map _
      · rw [mem_singleton.mp hy]
        exact hbefore x hx
  · rw [hbase]
    exact hreb.snoc_entry (hentries.symm ▸ hindex)

/-- So does a state. -/
theorem Sound.state (h : Sound seed checkpoint rs) (hs : HardState) (cs : ConfState) :
    Sound seed checkpoint (rs ++ [.state hs cs]) := by
  refine ⟨forall_mem_append.2 ⟨h.known, forall_mem_singleton.2 (.state hs cs)⟩, ?_,
    h.rebased.snoc_state hs cs⟩
  rw [rebuilt_state]
  exact ⟨h.wf.contiguous, h.wf.terms⟩

/-! ## Giving up the front of the log -/

/-- Records that a snapshot makes superfluous. -/
def Superfluous (i : Nat) (r : MetaRecord) : Prop := ∃ e, r = .entry e ∧ e.index ≤ i

theorem entriesAbove_superfluous {rs : List MetaRecord} (h : ∀ r ∈ front, Superfluous i r)
    {j : Nat} (hj : i ≤ j) :
    entriesAbove j (front ++ rs) = entriesAbove j rs := by
  have hfront : entriesAbove j front = [] := by
    refine entriesAbove_eq_nil fun e he => ?_
    obtain ⟨e', heq, hle⟩ := h _ he
    cases heq
    exact hle.trans hj
  rw [entriesAbove, foldl_append]
  change foldl _ (entriesAbove j front) rs = _
  rw [hfront]
  rfl

theorem foldl_superfluous (hc : c.entries = []) (h : ∀ r ∈ front, Superfluous c.snapshotIndex r) :
    front.foldl applied c = c := by
  induction front with
  | nil => rfl
  | cons r front ih =>
    obtain ⟨e, rfl, hle⟩ := h r mem_cons_self
    have hsame : applied c (.entry e) = c := by
      rw [applied, mirrorEntry, firstIndex, hc]
      exact if_pos (Nat.lt_succ_of_le hle)
    rw [foldl_cons, hsame]
    exact ih fun r hr => h r (mem_cons_of_mem _ hr)

/-- Giving them up changes nothing that is rebuilt. -/
theorem Sound.reap (h : Sound seed checkpoint (front ++ rs))
    (hfront : ∀ r ∈ front, Superfluous (base checkpoint).snapshotIndex r) :
    rebuilt seed checkpoint (front ++ rs) = rebuilt seed checkpoint rs
      ∧ Sound seed checkpoint rs := by
  have hkeep := foldl_superfluous (base_entries checkpoint) hfront
  have heq : rebuilt seed checkpoint (front ++ rs) = rebuilt seed checkpoint rs := by
    rw [rebuilt, foldl_append, hkeep, rebuilt]
  refine ⟨heq, fun r hr => h.known r (mem_append_right _ hr), heq ▸ h.wf, fun j hj => ?_,
    fun j hj hlt => ?_⟩
  · rw [← entriesAbove_superfluous hfront hj]
    exact h.rebased.starts j hj
  · rw [← entriesAbove_superfluous hfront le_rfl] at hlt ⊢
    rw [← entriesAbove_superfluous hfront hj]
    exact h.rebased.rest j hj hlt

/-! ## Runs -/

/-- A storage, and the mirrors that were in memory at the last sync or snapshot and since. -/
structure World where
  storage : MetadataLogStorage
  since : List MetadataCore

/-- Nothing was written to the log since it was synced. -/
structure Synced (s : MetadataLogStorage) : Prop where
  durable : s.log.durable = s.log.records.length
  flushed : s.flushed = s.log.records.length

/-- A snapshot of the applied state: committed, with the term of its entry. If it ends with the last
entry, nothing that was ever written to the log is above it. -/
structure SnapshotFits (s : MetadataLogStorage) (index term : Nat) : Prop where
  synced : Synced s
  committed : index ≤ s.core.hardState.commit
  term_eq : s.core.termAt index = some term
  term_le : term ≤ s.core.hardState.term
  kept : index < s.core.lastIndex
    ∨ ∀ e, MetaRecord.entry e ∈ s.log.records → e.index ≤ index

/-- A received snapshot: not behind what is committed, above everything that was ever written to the
log, and with the membership that was written last. -/
structure ReceivedFits (s : MetadataLogStorage) (snapshot : RaftSnapshot) : Prop where
  synced : Synced s
  committed : s.core.hardState.commit ≤ snapshot.index
  term_le : s.core.snapshotTerm ≤ snapshot.term
  voters : snapshot.confState.voters ≠ [] ∨ snapshot.confState.learners ≠ []
  entries : ∀ e, MetaRecord.entry e ∈ s.log.records → e.index ≤ snapshot.index
  member : ∀ hs cs, lastState s.log.records = some (hs, cs) → cs = snapshot.confState

inductive Step (seed : List Nat) : World → World → Prop where
  | append {w : World} (e : RaftEntry) (io : AppendIo)
    -- no gap, and terms that do not go back
    (hindex : e.index ≤ w.storage.core.lastIndex + 1)
    (hterm : ∀ t, w.storage.core.termAt (e.index - 1) = some t → t ≤ e.term) :
    Step seed w ⟨(w.storage.appendEntryRecord io e).2,
      w.since ++ [(w.storage.appendEntryRecord io e).2.core]⟩
  | hardState {w : World} (hs : HardState) (io : AppendIo)
    (hterm : w.storage.core.hardState.term ≤ hs.term)
    (hcommit : w.storage.core.hardState.commit ≤ hs.commit) :
    Step seed w ⟨(w.storage.setHardState io hs).2,
      w.since ++ [(w.storage.setHardState io hs).2.core]⟩
  | confState {w : World} (cs : ConfState) (io : AppendIo)
    (hcs : cs.voters ≠ [] ∨ cs.learners ≠ []) :
    Step seed w ⟨(w.storage.setConfState io cs).2,
      w.since ++ [(w.storage.setConfState io cs).2.core]⟩
  | sync {w : World} (fails : Bool) :
    Step seed w ⟨(w.storage.sync fails).2,
      if (w.storage.sync fails).1 then [(w.storage.sync fails).2.core] else w.since⟩
  | snapshot {w : World} (segments index term : Nat) (data : Bytes) (s : MetadataLogStorage)
    (answer : Except MetadataStorageError Unit)
    (hcreate : w.storage.createSnapshotAndCompact .ok segments index term data = some (answer, s))
    (hfits : w.storage.core.snapshotIndex < index → SnapshotFits w.storage index term) :
    Step seed w ⟨s, if w.storage.core.snapshotIndex < index then [s.core] else w.since⟩
  | received {w : World} (segments : Nat) (snapshot : RaftSnapshot)
    (hfits : ¬ snapshot.index < w.storage.core.firstIndex → ReceivedFits w.storage snapshot) :
    Step seed w ⟨(w.storage.installReceivedSnapshot .ok segments snapshot).2,
      if snapshot.index < w.storage.core.firstIndex then w.since
      else [(w.storage.installReceivedSnapshot .ok segments snapshot).2.core]⟩
  /-- The checkpoint refuses a snapshot. -/
  | snapshotFails {w : World} (segments index term : Nat) (data : Bytes) (s : MetadataLogStorage)
    (answer : Except MetadataStorageError Unit)
    (hcreate : w.storage.createSnapshotAndCompact (.fails false) segments index term data
      = some (answer, s)) : Step seed w ⟨s, w.since⟩
  | receivedFails {w : World} (segments : Nat) (snapshot : RaftSnapshot) :
    Step seed w ⟨(w.storage.installReceivedSnapshot (.fails false) segments snapshot).2, w.since⟩
  | crash {w : World} (survivors : Nat) (s : MetadataLogStorage)
    (hopen : reopen (w.storage.log.crash survivors) w.storage.earliest
      w.storage.checkpoint seed = .ok s) :
    Step seed w ⟨s, w.since ++ [s.core]⟩

def Reach (seed : List Nat) : World → World → Prop := Relation.ReflTransGen (Step seed)

/-- A new storage. -/
def freshStorage (seed : List Nat) : MetadataLogStorage :=
  ⟨.empty, 0, 0, empty.seedVoters seed, none⟩

def World.start (seed : List Nat) : World :=
  ⟨freshStorage seed, [(freshStorage seed).core]⟩

structure Inv (seed : List Nat) (w : World) : Prop where
  core : w.storage.core = rebuilt seed w.storage.checkpoint w.storage.log.records
  covered : ∀ n, w.storage.log.durable ≤ n → n ≤ w.storage.log.records.length →
    Sound seed w.storage.checkpoint (w.storage.log.records.take n)
      ∧ rebuilt seed w.storage.checkpoint (w.storage.log.records.take n) ∈ w.since

theorem Inv.start (seed : List Nat) : Inv seed (World.start seed) := by
  have hwf : Wf (rebuilt seed none []) := by
    refine ⟨fun k e he => ?_, ?_⟩
    · rw [rebuilt_fields.2.2.2] at he
      exact nomatch he
    · rw [rebuilt_fields.2.2.2]
      exact pairwise_singleton _ _
  refine ⟨rfl, fun n _ hn => ?_⟩
  obtain rfl := Nat.le_zero.mp hn
  exact ⟨⟨nofun, hwf, Rebased.nil _⟩, mem_singleton.mpr rfl⟩

/-- Everything in the log is sound. -/
theorem Inv.sound {w : World} (h : Inv seed w) :
    Sound seed w.storage.checkpoint w.storage.log.records := by
  have := (h.covered w.storage.log.records.length w.storage.log.durable_le le_rfl).1
  rwa [take_length] at this

/-- A record is written and the mirror follows, or neither. -/
def recorded (s : MetadataLogStorage) (io : AppendIo) (r : MetaRecord) (core : MetadataCore) :
    MetadataLogStorage :=
  { s with
    log := (s.log.append io r).2
    core := if (s.log.append io r).1 then core else s.core }

theorem appendEntryRecord_eq (io : AppendIo) (e : RaftEntry) :
    (s.appendEntryRecord io e).2 = recorded s io (.entry e) (s.core.mirrorEntry e) := by
  unfold appendEntryRecord recorded
  rcases s.log.append io _ with ⟨_ | _, _⟩ <;> rfl

theorem setHardState_eq (io : AppendIo) (hs : HardState) : (s.setHardState io hs).2
    = recorded s io (.state hs s.core.confState) { s.core with hardState := hs } := by
  unfold setHardState recorded
  rcases s.log.append io _ with ⟨_ | _, _⟩ <;> rfl

theorem setConfState_eq (io : AppendIo) (cs : ConfState) : (s.setConfState io cs).2
    = recorded s io (.state s.core.hardState cs) { s.core with confState := cs } := by
  unfold setConfState recorded
  rcases s.log.append io _ with ⟨_ | _, _⟩ <;> rfl

theorem Inv.recorded {w : World} (h : Inv seed w) (io : AppendIo) {r : MetaRecord}
    (hcore : c = rebuilt seed w.storage.checkpoint (w.storage.log.records ++ [r]))
    (hsound : Sound seed w.storage.checkpoint (w.storage.log.records ++ [r])) :
    Inv seed ⟨MetadataStorage.recorded w.storage io r c,
      w.since ++ [(MetadataStorage.recorded w.storage io r c).core]⟩ := by
  obtain ⟨hrec, hdur⟩ := w.storage.log.append_records io r
  unfold MetadataStorage.recorded
  generalize w.storage.log.append io r = res at hrec hdur ⊢
  obtain ⟨_ | _, log⟩ := res
  · simp only [Bool.false_eq_true, if_false] at hrec ⊢
    refine ⟨hrec.symm ▸ h.core, fun n hlo hhi => ?_⟩
    simp only [hrec] at hhi ⊢
    obtain ⟨hs, hmem⟩ := h.covered n (hdur.trans hlo) hhi
    exact ⟨hs, mem_append_left _ hmem⟩
  · simp only [if_true] at hrec ⊢
    refine ⟨hrec.symm ▸ hcore, fun n hlo hhi => ?_⟩
    simp only [hrec, length_append, length_singleton] at hhi ⊢
    rcases lt_or_ge w.storage.log.records.length n with hlast | hold
    · rw [take_of_length_le (by rw [length_append, length_singleton]; omega)]
      exact ⟨hsound, mem_append_right _ (mem_singleton.mpr hcore.symm)⟩
    · rw [take_append_of_le_length hold]
      obtain ⟨hs, hmem⟩ := h.covered n (hdur.trans hlo) hold
      exact ⟨hs, mem_append_left _ hmem⟩

/-- The records that are given up are superfluous. -/
theorem take_protectFloor (hknown : ∀ r ∈ s.log.records, Known r)
    (hflushed : s.flushed = s.log.records.length) (index : Nat) {n : Nat}
    (hn : n ≤ s.protectFloor index) : ∀ r ∈ s.log.records.take n, Superfluous index r := by
  have hnot : ∀ r ∈ s.log.records.take n, retained index r = false := by
    intro r hr
    rw [protectFloor, hflushed, take_length] at hn
    cases hfind : s.log.records.findIdx? (retained index) with
    | none => exact findIdx?_eq_none_iff.mp hfind r (mem_of_mem_take hr)
    | some i =>
      rw [hfind, Option.getD_some] at hn
      obtain ⟨_, _, hbefore⟩ := findIdx?_eq_some_iff_getElem.mp hfind
      obtain ⟨j, hj, rfl⟩ := mem_take_iff_getElem.mp hr
      exact Bool.eq_false_iff.mpr (hbefore j (by omega))
  intro r hr
  have hret := hnot r hr
  cases hknown r (mem_of_mem_take hr) with
  | entry e => exact ⟨e, rfl, not_lt.mp (of_decide_eq_false hret)⟩
  | state hs cs => exact nomatch hret

/-- After a snapshot was written to a synced log, giving up its front leaves only the new mirror. -/
theorem Inv.reclaimed (hsync : Synced s)
    (hcore : s.core = rebuilt seed s.checkpoint s.log.records)
    (hsound : Sound seed s.checkpoint s.log.records) (segments : Nat) {index : Nat}
    (hindex : (base s.checkpoint).snapshotIndex = index) :
    Inv seed ⟨(s.reclaimLogPrefix segments index).2,
      [(s.reclaimLogPrefix segments index).2.core]⟩ := by
  have hall : ∀ t : MetadataLogStorage, t.checkpoint = s.checkpoint → t.core = s.core →
      t.log.durable = t.log.records.length →
      rebuilt seed s.checkpoint t.log.records = rebuilt seed s.checkpoint s.log.records →
      Sound seed s.checkpoint t.log.records → Inv seed ⟨t, [t.core]⟩ := by
    intro t hcheck htcore hdur hsame htsound
    refine ⟨?_, fun n hlo hhi => ?_⟩
    · rw [htcore, hcheck, hsame]
      exact hcore
    · simp only at hlo hhi
      obtain rfl : n = t.log.records.length := by omega
      simp only [take_length]
      rw [hcheck]
      refine ⟨htsound, mem_singleton.mpr ?_⟩
      rw [hsame, htcore, hcore]
  unfold reclaimLogPrefix
  split
  · exact hall s rfl rfl hsync.durable rfl hsound
  have hfront := take_protectFloor hsound.known hsync.flushed index
    (min_le_right segments (s.protectFloor index))
  have hsplit : s.log.records.take (min segments (s.protectFloor index))
      ++ s.log.records.drop (min segments (s.protectFloor index)) = s.log.records :=
    take_append_drop _ _
  rw [← hsplit] at hsound
  obtain ⟨hsame, hsound'⟩ := hsound.reap (hindex.symm ▸ hfront)
  refine hall _ rfl rfl ?_ ?_ hsound'
  · simp only [RecordLog.reap, length_drop]
    rw [hsync.durable]
  · simp only [RecordLog.reap]
    rw [← hsame, hsplit]

/-- The log of an entry that is there is dropped up to it. -/
theorem compact_of_termAt {index term : Nat} (hnew : c.snapshotIndex < index)
    (hterm : c.termAt index = some term) : c.compact (index + 1) = some { c with
      snapshotTerm := term
      snapshotIndex := index
      entries := c.entries.drop (index - c.firstIndex + 1) } := by
  rw [termAt, if_neg (by omega)] at hterm
  split at hterm
  · cases hterm
  obtain ⟨e, he, rfl⟩ := Option.map_eq_some_iff.mp hterm
  rw [compact]
  dsimp only
  rw [if_neg (by omega), Nat.add_sub_cancel, he, Option.map_some]

/-- A snapshot that is not new changes nothing; one whose write fails changes the checkpoint at
most. -/
theorem createSnapshotAndCompact_cases {write : CheckpointWrite} {segments index term : Nat}
    {data : Bytes} {answer : Except MetadataStorageError Unit} {s' : MetadataLogStorage}
    (h : s.createSnapshotAndCompact write segments index term data = some (answer, s')) :
    index ≤ s.core.snapshotIndex ∧ s' = s
      ∨ (∃ c, write = .ok ∧ s.core.snapshotIndex < index ∧ s.core.compact (index + 1) = some c
        ∧ s' = (reclaimLogPrefix { s with
            checkpoint := some ⟨index, term, s.core.confState, data⟩
            core := { c with snapshotData := data } } segments index).2)
      ∨ ∃ stored, write = .fails stored ∧ s.core.snapshotIndex < index
        ∧ s' = if stored then { s with checkpoint := some ⟨index, term, s.core.confState, data⟩ }
          else s := by
  unfold createSnapshotAndCompact at h
  split at h
  · rename_i hold
    cases h
    exact .inl ⟨hold, rfl⟩
  rename_i hnew
  cases write with
  | ok =>
    obtain ⟨c, hcompact, heq⟩ := Option.map_eq_some_iff.mp h
    exact .inr (.inl ⟨c, rfl, by omega, hcompact, (congrArg Prod.snd heq).symm⟩)
  | fails stored =>
    cases h
    exact .inr (.inr ⟨stored, rfl, by omega, rfl⟩)

theorem installReceivedSnapshot_eq {snapshot : RaftSnapshot}
    (hnew : ¬ snapshot.index < s.core.firstIndex) (segments : Nat) :
    (s.installReceivedSnapshot .ok segments snapshot).2
      = (reclaimLogPrefix { s with
          checkpoint := some snapshot
          core := (s.core.applySnapshot snapshot).2 } segments snapshot.index).2 := by
  rw [installReceivedSnapshot, if_neg hnew]
  dsimp only [writeCheckpoint]
  rcases reclaimLogPrefix _ segments snapshot.index with ⟨_ | _, _⟩ <;> rfl

theorem installReceivedSnapshot_fails (stored : Bool) (segments : Nat) (snapshot : RaftSnapshot) :
    (s.installReceivedSnapshot (.fails stored) segments snapshot).2 = s
      ∨ (s.installReceivedSnapshot (.fails stored) segments snapshot).2
        = { s with checkpoint := some snapshot } ∧ stored = true
          ∧ ¬ snapshot.index < s.core.firstIndex := by
  unfold installReceivedSnapshot
  split
  · exact .inl rfl
  · cases stored with
    | false => exact .inl rfl
    | true => exact .inr ⟨rfl, rfl, by assumption⟩

theorem Step.inv {w w' : World} (h : Step seed w w') (hinv : Inv seed w) : Inv seed w' := by
  have hcore := hinv.core
  have hsound := hinv.sound
  cases h with
  | append e io hindex hterm =>
    rw [appendEntryRecord_eq]
    exact hinv.recorded io (by rw [rebuilt_append, ← hcore]) (hsound.append hcore hindex hterm)
  | hardState hs io hterm hcommit =>
    rw [setHardState_eq]
    rw [hcore] at hterm hcommit
    exact hinv.recorded io (by rw [hcore, rebuilt_hardState hterm hcommit]) (hsound.state _ _)
  | confState cs io hcs =>
    rw [setConfState_eq]
    exact hinv.recorded io (by rw [hcore, rebuilt_confState_append hcs]) (hsound.state _ _)
  | sync fails =>
    -- only a barrier that succeeds leaves the mirrors before it behind
    obtain ⟨hrec, hdur, hall⟩ := w.storage.log.sync_spec fails
    unfold MetadataLogStorage.sync
    generalize w.storage.log.sync fails = res at hrec hdur hall ⊢
    obtain ⟨_ | _, log⟩ := res
    · dsimp only at hrec hdur
      refine ⟨hrec.symm ▸ hcore, fun n hlo hhi => ?_⟩
      simp only [hrec] at hhi ⊢
      exact hinv.covered n (hdur.trans hlo) hhi
    · have hlen : log.durable = w.storage.log.records.length := hall rfl
      dsimp only at hrec
      refine ⟨hrec.symm ▸ hcore, fun n hlo hhi => ?_⟩
      simp only [hrec] at hhi ⊢
      obtain rfl : n = w.storage.log.records.length := by
        dsimp only at hlo
        omega
      rw [take_length, ← hcore, if_pos trivial]
      exact ⟨hsound, mem_singleton.mpr rfl⟩
  | snapshot segments index term data s answer hcreate hfits =>
    obtain ⟨hold, rfl⟩ | ⟨c, -, hnew, hcompact, rfl⟩ | ⟨_, hno, -⟩ :=
      createSnapshotAndCompact_cases hcreate
    · rw [if_neg (by omega)]
      exact hinv
    · -- the rebuilt mirror starts at the snapshot now
      have hf := hfits hnew
      obtain ⟨c', hcompact', hreb, hsound'⟩ := rebuilt_snapshot data hsound hcore hnew hf.committed
        hf.term_eq hf.term_le hf.kept
      obtain rfl := Option.some.inj (hcompact.symm.trans hcompact')
      rw [if_pos hnew]
      refine Inv.reclaimed ?_ hreb.symm hsound' segments ?_
      · exact ⟨hf.synced.durable, hf.synced.flushed⟩
      · rw [base_some (Nat.zero_lt_of_lt hnew)]
    · cases hno
  | received segments snapshot hfits =>
    by_cases hstale : snapshot.index < w.storage.core.firstIndex
    · rw [if_pos hstale, installReceivedSnapshot, if_pos hstale]
      exact hinv
    · have hf := hfits hstale
      obtain ⟨hreb, hsound'⟩ := rebuilt_received hsound hcore hstale hf.committed hf.term_le
        hf.voters hf.entries hf.member
      have hpos : 0 < snapshot.index := by
        have := hsound.wf.firstIndex_eq
        rw [← hcore] at this
        omega
      rw [if_neg hstale, installReceivedSnapshot_eq hstale]
      refine Inv.reclaimed ?_ hreb.symm hsound' segments ?_
      · exact ⟨hf.synced.durable, hf.synced.flushed⟩
      · rw [base_some hpos]
  | snapshotFails segments index term data s answer hcreate =>
    obtain ⟨-, rfl⟩ | ⟨c, hno, -⟩ | ⟨stored, heq, -, rfl⟩ :=
      createSnapshotAndCompact_cases hcreate
    · exact hinv
    · cases hno
    · cases heq
      exact hinv
  | receivedFails segments snapshot =>
    obtain heq | ⟨-, hno, -⟩ :=
      installReceivedSnapshot_fails (s := w.storage) false segments snapshot
    · rw [heq]
      exact hinv
    · cases hno
  | crash survivors s hopen =>
    have hknown : ∀ r ∈ (w.storage.log.crash survivors).records, Known r := fun r hr =>
      hsound.known r (mem_of_mem_take hr)
    rw [reopen_known hknown] at hopen
    cases hopen
    -- what survives is a front part that a mirror since the barrier was rebuilt from
    refine ⟨rfl, fun n hlo hhi => ?_⟩
    simp only [RecordLog.crash, length_take, take_take] at hlo hhi ⊢
    have hmin : min n (max w.storage.log.durable survivors) = n := by omega
    rw [hmin]
    obtain ⟨hs, hmem⟩ := hinv.covered n hlo (by omega)
    exact ⟨hs, mem_append_left _ hmem⟩

/-- Entries each of which continues the ones before it. -/
def Continue (s : MetadataLogStorage) : List AppendIo → List RaftEntry → Prop
  | _, [] => True
  | ios, e :: es =>
    e.index ≤ s.core.lastIndex + 1 ∧ (∀ t, s.core.termAt (e.index - 1) = some t → t ≤ e.term)
      ∧ Continue (s.appendEntryRecord (ios.head?.getD .ok) e).2 ios.tail es

/-- How many of the entries of a call are written: those before the first append that fails. -/
def written (frozen : Bool) : List AppendIo → Nat → Nat
  | _, 0 => 0
  | ios, n + 1 =>
    if frozen || (ios.head?.getD .ok).fault.isSome then 0 else written false ios.tail n + 1

/-- What one append does to the storage, by whether the storage takes it. -/
theorem appendEntryRecord_cases (io : AppendIo) (e : RaftEntry) :
    ((s.log.frozen || io.fault.isSome) = true ∧ (s.appendEntryRecord io e).1 = false
        ∧ (s.appendEntryRecord io e).2.log.records = s.log.records
        ∧ (s.appendEntryRecord io e).2.core = s.core)
      ∨ ((s.log.frozen || io.fault.isSome) = false ∧ (s.appendEntryRecord io e).1 = true
        ∧ (s.appendEntryRecord io e).2.log.records = s.log.records ++ [.entry e]
        ∧ (s.appendEntryRecord io e).2.core = s.core.mirrorEntry e
        ∧ (s.appendEntryRecord io e).2.log.frozen = false) := by
  unfold appendEntryRecord RecordLog.append
  cases hfrozen : s.log.frozen with
  | true => exact .inl ⟨rfl, by simp⟩
  | false =>
    rcases hfault : io.fault with _ | _ | _
    · refine .inr ⟨rfl, ?_⟩
      cases io.rolls <;> simp [RecordLog.push, RecordLog.settle, hfrozen]
    · exact .inl ⟨rfl, by cases io.rolls <;> simp [RecordLog.settle]⟩
    · exact .inl ⟨rfl, by cases io.rolls <;> simp [RecordLog.settle]⟩

/-- A call that appends entries writes those before the first append that fails, the mirror takes
them one after the other, and each attempt is a step of a run. -/
theorem append_reach {ios : List AppendIo} (h : Continue s ios es) (since : List MetadataCore) :
    let k := written s.log.frozen ios es.length
    let s' := (s.append ios es).2
    (s.append ios es).1 = decide (k = es.length)
      ∧ s'.log.records = s.log.records ++ (es.take k).map .entry
      ∧ s'.core = (es.take k).foldl mirrorEntry s.core
      ∧ Reach seed ⟨s, since⟩ ⟨s', since ++ (range (min (k + 1) es.length)).map fun i =>
          (es.take (min (i + 1) k)).foldl mirrorEntry s.core⟩ := by
  induction es generalizing s ios since with
  | nil => exact ⟨rfl, by simp [append], rfl, by simpa using .refl⟩
  | cons e es ih =>
    obtain ⟨hindex, hterm, hrest⟩ := h
    have hstep : Step seed ⟨s, since⟩ _ := .append e (ios.head?.getD .ok) hindex hterm
    dsimp only at hstep
    have hcases := appendEntryRecord_cases (s := s) (ios.head?.getD .ok) e
    intro k s'
    rcases hres : s.appendEntryRecord (ios.head?.getD .ok) e with ⟨ok, t⟩
    have happend : s.append ios (e :: es) = if ok then t.append ios.tail es else (false, t) := by
      rw [append, hres]
      cases ok <;> rfl
    rw [hres] at hcases hrest hstep
    dsimp only at hcases hrest hstep
    rcases hcases with ⟨hfails, rfl, hrec, hcore⟩ | ⟨hfails, rfl, hrec, hcore, hunfrozen⟩
    · -- the first append fails and the call ends
      have hk : k = 0 := by simp only [k, length_cons, written, hfails, if_true]
      have hs : s' = t := by simp only [s', happend, if_false, Bool.false_eq_true]
      rw [hk, hs, happend]
      refine ⟨by simp, by simpa using hrec, hcore, ?_⟩
      rw [hcore] at hstep
      simpa [Reach] using Relation.ReflTransGen.single hstep
    · -- it is written, and the rest of the call goes on from there
      have hk : k = written t.log.frozen ios.tail es.length + 1 := by
        simp only [k, length_cons, written, hfails, hunfrozen, Bool.false_eq_true, if_false]
      have hs : s' = (t.append ios.tail es).2 := by simp only [s', happend, if_true]
      obtain ⟨hok, hrecs, hcores, hreach⟩ := ih hrest (since ++ [t.core])
      rw [hk, hs, happend, if_pos rfl]
      refine ⟨by simpa using hok, ?_, ?_, ?_⟩
      · rw [hrecs, hrec]
        simp
      · rw [hcores, hcore]
        rfl
      · refine .head hstep ?_
        rw [length_cons, Nat.add_min_add_right, range_succ_eq_map]
        simpa [Reach, hcore, Function.comp_def, Nat.add_min_add_right] using hreach

/-! ## Concrete runs -/

/-- An entry with one byte of data. -/
def entryAt (index term : Nat) : RaftEntry := ⟨index, term, .normal, [7]⟩

/-- A new group with one voter writes its first entry and commits it. -/
def firstEntry : MetadataLogStorage :=
  (((freshStorage [1]).appendEntryRecord .ok (entryAt 1 1)).2.setHardState .ok ⟨1, 1, 1⟩).2

/-- The second of two entries is refused: the call fails and leaves the first. -/
theorem append_reach_refused :
    let ios : List AppendIo := [.ok, ⟨false, some .refuse⟩]
    let res := (freshStorage [1]).append ios [entryAt 1 1, entryAt 2 1]
    res.1 = false ∧ res.2.log.records = [.entry (entryAt 1 1)]
      ∧ Reach [1] ⟨freshStorage [1], []⟩ ⟨res.2, [res.2.core, res.2.core]⟩ := by
  have hnext :
      Continue (freshStorage [1]) [.ok, ⟨false, some .refuse⟩] [entryAt 1 1, entryAt 2 1] :=
    ⟨by decide, by rintro t ⟨⟩; decide, by decide, by rintro t ⟨⟩; decide, trivial⟩
  obtain ⟨hok, hrecs, -, hreach⟩ := @append_reach _ _ [1] _ hnext []
  exact ⟨hok, hrecs, hreach⟩

/-- What opening a storage again finds. -/
def reopened (s : MetadataLogStorage) : Option MetadataCore :=
  match reopen s.log s.earliest s.checkpoint [1] with
  | .ok s => some s.core
  | .error _ => none

/-- Three entries of the first term. -/
def threeEntries : MetadataLogStorage :=
  ((freshStorage [1]).append [] [entryAt 1 1, entryAt 2 1, entryAt 3 1]).2

/-- The sizes of the sealed segments. -/
def sizes (sealed : List (List MetaRecord)) : List Nat := sealed.map length

/-- Ready cycles, with what they write up to a barrier, and snapshots after a barrier, each with the
segments that are sealed by then. The flag is whether there was a barrier since the last write. -/
inductive Cycles (seed : List Nat) : Bool → MetadataLogStorage → Prop where
  | start : Cycles seed true (freshStorage seed)
  | append {b : Bool} {s : MetadataLogStorage} (h : Cycles seed b s) (io : AppendIo)
    (e : RaftEntry) : Cycles seed false (s.appendEntryRecord io e).2
  | hardState {b : Bool} {s : MetadataLogStorage} (h : Cycles seed b s) (io : AppendIo)
    (hs : HardState) : Cycles seed false (s.setHardState io hs).2
  | confState {b : Bool} {s : MetadataLogStorage} (h : Cycles seed b s) (io : AppendIo)
    (cs : ConfState) : Cycles seed false (s.setConfState io cs).2
  | barrier {b : Bool} {s : MetadataLogStorage} (h : Cycles seed b s)
    (hok : (s.sync false).1) : Cycles seed true (s.sync false).2
  | snapshot {s s' : MetadataLogStorage} {answer : Except MetadataStorageError Unit}
    (h : Cycles seed true s) (sealed : List (List MetaRecord)) (index term : Nat) (data : Bytes)
    (write : CheckpointWrite)
    (hcreate : s.createSnapshotAndCompact write (reapable (s.protectFloor index) (sizes sealed))
      index term data = some (answer, s')) : Cycles seed true s'
  | received {s : MetadataLogStorage} (h : Cycles seed true s) (sealed : List (List MetaRecord))
    (snapshot : RaftSnapshot) (write : CheckpointWrite) :
    Cycles seed true (s.installReceivedSnapshot write
      (reapable (s.protectFloor snapshot.index) (sizes sealed)) snapshot).2

/-- The first sealed segments, `k` of them, lie before the first entry above a snapshot and before
the newest state record. -/
def Superseded (index : Nat) (sealed : List (List MetaRecord)) (active : List MetaRecord)
    (k : Nat) : Prop :=
  (∀ e, .entry e ∈ (sealed.take k).flatten → e.index ≤ index)
    ∧ ((∃ hs cs, .state hs cs ∈ (sealed.drop k).flatten ++ active)
      ∨ ∀ hs cs, .state hs cs ∉ (sealed.take k).flatten)

/-- A log of entries and states, which can be read after a barrier. -/
structure Tidy (b : Bool) (s : MetadataLogStorage) : Prop where
  known : ∀ r ∈ s.log.records, Known r
  flushed : b = true → s.flushed = s.log.records.length

theorem Tidy.recorded {b : Bool} {r : MetaRecord} (h : Tidy b s) (hr : Known r) (io : AppendIo)
    (c : MetadataCore) : Tidy false (MetadataStorage.recorded s io r c) := by
  refine ⟨?_, nofun⟩
  rw [MetadataStorage.recorded, (s.log.append_records io r).1]
  split
  · exact forall_mem_append.2 ⟨h.known, forall_mem_singleton.2 hr⟩
  · exact h.known

theorem Tidy.reclaimed (h : Tidy true s) (n index : Nat) :
    Tidy true (s.reclaimLogPrefix n index).2 := by
  unfold reclaimLogPrefix
  split
  · exact h
  · refine ⟨fun r hr => h.known r (mem_of_mem_drop hr), fun _ => ?_⟩
    simp only [RecordLog.reap, length_drop, h.flushed rfl]

theorem Cycles.tidy {b : Bool} (h : Cycles seed b s) : Tidy b s := by
  induction h with
  | start => exact ⟨nofun, fun _ => rfl⟩
  | append _ io e ih => exact appendEntryRecord_eq io e ▸ ih.recorded (.entry e) io _
  | hardState _ io hs ih => exact setHardState_eq io hs ▸ ih.recorded (.state _ _) io _
  | confState _ io cs ih => exact setConfState_eq io cs ▸ ih.recorded (.state _ _) io _
  | @barrier _ s _ hok ih =>
    obtain ⟨hrec, -, -⟩ := s.log.sync_spec false
    unfold MetadataLogStorage.sync at hok ⊢
    generalize s.log.sync false = res at hrec hok ⊢
    obtain ⟨_ | _, log⟩ := res
    · cases hok
    · exact ⟨(hrec : log.records = _) ▸ ih.known, fun _ => rfl⟩
  | snapshot _ _ index _ _ _ hcreate ih =>
    obtain ⟨-, rfl⟩ | ⟨c, -, -, -, rfl⟩ | ⟨stored, -, -, rfl⟩ :=
      createSnapshotAndCompact_cases hcreate
    · exact ih
    · refine Tidy.reclaimed ?_ _ index
      exact ⟨ih.known, ih.flushed⟩
    · cases stored with
      | false => exact ih
      | true => exact ⟨ih.known, ih.flushed⟩
  | @received s _ _ snapshot write ih =>
    cases write with
    | ok =>
      by_cases hstale : snapshot.index < s.core.firstIndex
      · rw [installReceivedSnapshot, if_pos hstale]
        exact ih
      · rw [installReceivedSnapshot_eq hstale]
        refine Tidy.reclaimed ?_ _ snapshot.index
        exact ⟨ih.known, ih.flushed⟩
    | fails stored =>
      obtain heq | ⟨heq, -⟩ := installReceivedSnapshot_fails (s := s) stored _ snapshot
      · rw [heq]
        exact ih
      · rw [heq]
        exact ⟨ih.known, ih.flushed⟩

theorem reapable_le (floor : Nat) (ns : List Nat) : reapable floor ns ≤ floor := by
  induction ns generalizing floor with
  | nil => exact Nat.zero_le _
  | cons n ns ih =>
    rw [reapable]
    split
    · have := ih (floor - n)
      omega
    · exact Nat.zero_le _

/-- A reap removes every front of the sealed segments that ends at or below the floor. -/
theorem le_reapable {floor k : Nat} {ns : List Nat} (h : (ns.take k).sum ≤ floor) :
    (ns.take k).sum ≤ reapable floor ns := by
  induction ns generalizing floor k with
  | nil => simp [reapable]
  | cons n ns ih =>
    cases k with
    | zero => simp
    | succ k =>
      rw [take_succ_cons, sum_cons] at h ⊢
      have := @ih (floor - n) k (by omega)
      rw [reapable, if_pos (by omega)]
      omega

theorem le_protectFloor (hflushed : s.flushed = s.log.records.length) {index n : Nat}
    (hn : n ≤ s.log.records.length)
    (h : ∀ r ∈ s.log.records.take n, retained index r = false) : n ≤ s.protectFloor index := by
  rw [protectFloor, hflushed, take_length]
  cases hfind : s.log.records.findIdx? (retained index) with
  | none => exact hn
  | some i =>
    obtain ⟨hlt, hyes, -⟩ := findIdx?_eq_some_iff_getElem.mp hfind
    by_contra hle
    rw [h _ (mem_take_iff_getElem.mpr ⟨i, by rw [Option.getD_some] at hle; omega, rfl⟩)] at hyes
    cases hyes

/-- A snapshot of an applied entry succeeds and removes every segment that it supersedes just if
nothing was removed before and those segments hold no state record. -/
theorem snapshot_reclaims_iff (h : Cycles seed true s)
    {sealed : List (List MetaRecord)} {active : List MetaRecord}
    (hsealed : s.log.records = sealed.flatten ++ active) {index term : Nat}
    (hnew : s.core.snapshotIndex < index) (hterm : s.core.termAt index = some term) (data : Bytes) :
    (∃ s', s.createSnapshotAndCompact .ok (reapable (s.protectFloor index) (sizes sealed)) index
        term data = some (.ok (), s')
      ∧ ∀ k, Superseded index sealed active k →
        s.earliest + (sealed.take k).flatten.length ≤ s'.earliest)
      ↔ s.earliest = 0 ∧ ∀ k, Superseded index sealed active k →
        ∀ hs cs, .state hs cs ∉ (sealed.take k).flatten := by
  have hsizes (k : Nat) : (sealed.take k).flatten.length = ((sizes sealed).take k).sum := by
    rw [length_flatten, sizes, map_take]
  have hfront (k : Nat) : s.log.records.take (sealed.take k).flatten.length
      = (sealed.take k).flatten := by
    rw [hsealed, ← take_append_drop k sealed, flatten_append, append_assoc]
    simp
  have hflushed := h.tidy.flushed rfl
  have hmin := min_eq_left (reapable_le (s.protectFloor index) (sizes sealed))
  rw [createSnapshotAndCompact, if_neg (by omega)]
  dsimp only [writeCheckpoint]
  rw [compact_of_termAt hnew hterm, Option.map_some, reclaimLogPrefix]
  dsimp only
  constructor
  · rintro ⟨s', heq, hgone⟩
    by_cases hearliest : s.earliest = 0
    · rw [if_neg (not_not.mpr hearliest)] at heq
      cases heq
      refine ⟨hearliest, fun k hk hs cs hmem => ?_⟩
      -- what a reap takes away holds no state record
      have hle : s.earliest + _ ≤ s.earliest + min _ (s.protectFloor index) := hgone k hk
      obtain ⟨e, heq, -⟩ := take_protectFloor h.tidy.known hflushed index
        (n := (sealed.take k).flatten.length) (by omega) _ ((hfront k).symm ▸ hmem)
      cases heq
    · rw [if_pos hearliest] at heq
      cases heq
  · rintro ⟨hearliest, hfree⟩
    rw [if_neg (not_not.mpr hearliest)]
    refine ⟨_, rfl, fun k hk => ?_⟩
    show s.earliest + _ ≤ s.earliest + min _ (s.protectFloor index)
    rw [hmin, hsizes]
    refine Nat.add_le_add_left (le_reapable ?_) _
    rw [← hsizes]
    -- every record in front is an entry that the snapshot covers
    refine le_protectFloor hflushed ?_ fun r hr => ?_
    · have := congrArg length (hfront k)
      rw [length_take] at this
      omega
    · have hknown := h.tidy.known r (mem_of_mem_take hr)
      rw [hfront] at hr
      cases hknown with
      | entry e => exact decide_eq_false (not_lt.mpr (hk.1 e hr))
      | state hs cs => exact absurd hr (hfree k hk hs cs)

/-- A cycle that writes three entries and a state. -/
def oneCycle : MetadataLogStorage := ((threeEntries.setHardState .ok ⟨1, 1, 3⟩).2.sync false).2

/-- Two entries are sealed; a snapshot at the second removes their segment. -/
theorem snapshot_reclaims_first :
    ∃ s', oneCycle.createSnapshotAndCompact .ok (reapable (oneCycle.protectFloor 2) [2]) 2 1 [9]
        = some (.ok (), s') ∧ 2 ≤ s'.earliest := by
  have hnone (k : Nat) (hs : HardState) (cs : ConfState) :
      MetaRecord.state hs cs
        ∉ ([[MetaRecord.entry (entryAt 1 1), .entry (entryAt 2 1)]].take k).flatten := by
    rcases k with _ | k <;> simp
  have hthree : Cycles [1] false threeEntries :=
    .append (.append (.append .start .ok (entryAt 1 1)) .ok (entryAt 2 1)) .ok (entryAt 3 1)
  have hrun : Cycles [1] true oneCycle := .barrier (.hardState hthree _ _) (by decide)
  have hnew : oneCycle.core.snapshotIndex < 2 := by decide
  have hterm : oneCycle.core.termAt 2 = some 1 := by decide
  obtain ⟨s', heq, hgone⟩ := (@snapshot_reclaims_iff oneCycle [1] hrun _
    [.entry (entryAt 3 1), .state ⟨1, 1, 3⟩ ⟨[1], [], [], [], false⟩] rfl 2 1 hnew hterm
    [9]).mpr ⟨rfl, fun k _ => hnone k⟩
  refine ⟨s', heq, (hgone 1 ⟨fun e he => ?_, .inr (hnone 1)⟩).trans' (by decide)⟩
  rcases he with _ | ⟨_, _ | ⟨_, he⟩⟩ <;> first | decide | cases he

/-- After a snapshot that removed a segment the next one fails. A segment with a state record that
is not the newest stays. -/
theorem second_snapshot_fails :
    ((oneCycle.createSnapshotAndCompact .ok 2 2 1 [9]).bind fun r =>
        (r.2.createSnapshotAndCompact .ok 0 3 1 [9]).map Prod.fst) = some (.error .offsetOutOfRange)
      ∧ let s := ((firstEntry.setHardState .ok ⟨2, 1, 1⟩).2.sync false).2
        (s.createSnapshotAndCompact .ok (reapable (s.protectFloor 1) [2]) 1 1 [9]).map
          (·.2.earliest) = some 0 := by
  decide +kernel

end MetadataStorage

end IronBus
