import IronBus.Native.MetadataCodec
import IronBus.ForStd.List

/-!
# The bytes of the control plane are its contents

Key results:
- `MetadataCommand.decode_ok`, `restore_ok`: each reader accepts exactly what its writer writes for
  a value in range
- `restore_snapshot`: restoring a snapshot gives the contents it was made of
- `metadata_replay`: a node that restores one and applies the rest of the log ends where one does
  that applied the whole log
-/

namespace IronBus

open Reader List Bytes MetadataCommand

/-! ## The readers -/

namespace MetadataCursor

theorem u8_reads : u8.Reads (fun c => [c]) fun _ => True := by
  intro b c rest
  rw [u8, (take_reads _ _).bind_ok]
  constructor
  · rintro ⟨bs, b', ⟨hlen, rfl⟩, h⟩
    obtain ⟨rfl, rfl⟩ := pure_ok.mp h
    obtain ⟨c, rfl⟩ := length_eq_one_iff.mp hlen
    exact ⟨trivial, rfl⟩
  · rintro ⟨-, rfl⟩
    exact ⟨[c], rest, ⟨rfl, rfl⟩, pure_ok.mpr ⟨rfl, rfl⟩⟩

theorem u32_reads : u32.Reads (ofNatLE 4) (· < 2 ^ 32) := natLE_reads _ 4

theorem u64_reads : u64.Reads (ofNatLE 8) (· < 2 ^ 64) := natLE_reads _ 8

theorem fromTag_eq_some {t : UInt8} {r : NodeRole} : NodeRole.fromTag t = some r ↔ t = r.tag := by
  constructor
  · intro h
    unfold NodeRole.fromTag at h
    split at h <;> cases h <;> rfl
  · rintro rfl
    cases r <;> rfl

theorem role_reads (c : UInt8) : (role c).Reads (fun r => [r.tag]) fun _ => True := by
  intro b r rest
  simp only [role, u8_reads.bind_ok, ofOption_ok, fromTag_eq_some]
  constructor
  · rintro ⟨_, _, ⟨-, rfl⟩, rfl, rfl⟩
    exact ⟨trivial, rfl⟩
  · rintro ⟨-, rfl⟩
    exact ⟨r.tag, rest, ⟨trivial, rfl⟩, rfl, rfl⟩

theorem pushU32Len_of_lt {n : Nat} (h : n < 2 ^ 32) : pushU32Len n = ofNatLE 4 n := by
  rw [pushU32Len, min_eq_left (by omega)]

theorem fromUTF8_eq_some {bs : Bytes} {s : String} :
    String.fromUTF8? ⟨bs.toArray⟩ = some s ↔ bs = asBytes s := by
  unfold String.fromUTF8? asBytes
  constructor
  · intro h
    split at h
    · obtain rfl := Option.some.inj h
      rfl
    · cases h
  · rintro rfl
    rw [dif_pos s.isValidUTF8]
    rfl

theorem string_reads : string.Reads pushStr fun s => (asBytes s).length < 2 ^ 32 := by
  intro b s rest
  simp only [string, u32_reads.bind_ok, remaining_bind]
  constructor
  · rintro ⟨len, b', ⟨hlen, rfl⟩, h⟩
    split at h
    · cases h
    simp only [(take_reads _ _).bind_ok, ofOption_ok, fromUTF8_eq_some] at h
    obtain ⟨_, _, ⟨rfl, rfl⟩, rfl, rfl⟩ := h
    exact ⟨hlen, by simp [pushStr, pushU32Len_of_lt hlen]⟩
  · rintro ⟨hlen, rfl⟩
    refine ⟨(asBytes s).length, asBytes s ++ rest, ⟨hlen, ?_⟩, ?_⟩
    · simp [pushStr, pushU32Len_of_lt hlen]
    · rw [if_neg (by simp)]
      simp only [(take_reads _ _).bind_ok, ofOption_ok, fromUTF8_eq_some]
      exact ⟨asBytes s, rest, ⟨rfl, rfl⟩, rfl, rfl⟩

variable {α β : Type} {r : Reader MetadataDecodeError α} {r' : Reader MetadataDecodeError β}
  {enc : α → Bytes} {enc' : β → Bytes} {dom : α → Prop} {dom' : β → Prop}

theorem counted_reads (h : r.Reads enc dom) {least : Nat} (hleast : ∀ a, least ≤ (enc a).length) :
    (counted least r).Reads (pushCounted enc) fun l => l.length < 2 ^ 32 ∧ ∀ a ∈ l, dom a := by
  intro b l rest
  rw [counted, u32_reads.bind_ok]
  simp only [remaining_bind]
  constructor
  · rintro ⟨n, b', ⟨hn, rfl⟩, hr⟩
    split at hr
    · cases hr
    obtain ⟨⟨rfl, hdom⟩, rfl⟩ := (h.many n _ _ _).mp hr
    exact ⟨⟨hn, hdom⟩, by simp [pushCounted, pushU32Len_of_lt hn]⟩
  · rintro ⟨⟨hn, hdom⟩, rfl⟩
    refine ⟨l.length, l.flatMap enc ++ rest, ⟨hn, ?_⟩, ?_⟩
    · simp [pushCounted, pushU32Len_of_lt hn]
    · have hlen : l.length * least ≤ (l.flatMap enc).length := by
        clear hn hdom
        induction l with
        | nil => simp
        | cons a l ih =>
          have := hleast a
          rw [flatMap_cons, length_append, length_cons, Nat.succ_mul]
          omega
      rw [if_neg (by rw [length_append]; omega)]
      exact (h.many _ _ _ _).mpr ⟨⟨rfl, hdom⟩, rfl⟩

theorem pair_reads (h : r.Reads enc dom) (h' : r'.Reads enc' dom') :
    (pair r r').Reads (fun x => enc x.1 ++ enc' x.2) fun x => dom x.1 ∧ dom' x.2 := by
  intro b x rest
  rw [pair, h.bind_ok]
  simp only [h'.bind_ok, pure_ok]
  constructor
  · rintro ⟨a, _, ⟨ha, rfl⟩, a', _, ⟨ha', rfl⟩, rfl, rfl⟩
    exact ⟨⟨ha, ha'⟩, by simp⟩
  · rintro ⟨⟨ha, ha'⟩, rfl⟩
    exact ⟨x.1, _, ⟨ha, append_assoc ..⟩, x.2, rest, ⟨ha', rfl⟩, rfl, rfl⟩

end MetadataCursor

open MetadataCursor

/-- A placement that can be written and read back. -/
structure Placement.InRange (p : Placement) : Prop where
  replicas_lt : p.replicas.length < 2 ^ 32 ∧ ∀ r ∈ p.replicas, r < 2 ^ 64
  leader_mem : p.leader ∈ p.replicas
  epoch_lt : p.epoch < 2 ^ 64

theorem placement_reads :
    placement.Reads pushPlacement fun e => e.1 < 2 ^ 64 ∧ e.2.InRange := by
  intro b e rest
  simp only [placement, u64_reads.bind_ok,
    (counted_reads u64_reads fun n => (length_ofNatLE 8 n).ge).bind_ok]
  constructor
  · rintro ⟨p, _, ⟨hp, rfl⟩, replicas, _, ⟨hr, rfl⟩, leader, _, ⟨hl, rfl⟩, epoch, _, ⟨he, rfl⟩, h⟩
    split at h
    · cases h
    split at h
    · cases h
    next hmem =>
    obtain ⟨rfl, rfl⟩ := pure_ok.mp h
    exact ⟨⟨hp, hr, not_not.mp hmem, he⟩, by simp [pushPlacement]⟩
  · rintro ⟨⟨hp, hr, hl, he⟩, rfl⟩
    refine ⟨e.1, _, ⟨hp, ?_⟩, e.2.replicas, _, ⟨hr, rfl⟩, e.2.leader, _, ⟨hr.2 _ hl, rfl⟩,
      e.2.epoch, rest, ⟨he, rfl⟩, ?_⟩
    · simp [pushPlacement]
    · rw [if_neg (ne_nil_of_mem hl), if_neg (not_not.mpr hl)]
      exact pure_ok.mpr ⟨rfl, rfl⟩

/-! ## Commands -/

/-- A command whose fields fit their widths and whose placement is led by a replica. -/
def MetadataCommand.WellFormed : MetadataCommand → Prop
  | .addNode node _ => node < 2 ^ 64
  | .removeNode node => node < 2 ^ 64
  | .assignPartition partition leader epoch =>
    partition < 2 ^ 64 ∧ leader < 2 ^ 64 ∧ epoch < 2 ^ 64
  | .placePartition partition replicas leader epoch =>
    partition < 2 ^ 64 ∧ (⟨replicas, leader, epoch⟩ : Placement).InRange
  | .setConfig key value => (asBytes key).length < 2 ^ 32 ∧ (asBytes value).length < 2 ^ 32
  | .checkpointCommittedHw partition offset => partition < 2 ^ 64 ∧ offset < 2 ^ 64

theorem MetadataCommand.read_reads (buf : Bytes) :
    (read buf).Reads encode WellFormed := by
  intro b cmd rest
  rw [read, u8_reads.bind_ok]
  constructor
  · rintro ⟨tag, b', ⟨-, rfl⟩, h⟩
    -- one branch for each tag
    split at h
    · simp only [u64_reads.bind_ok, (role_reads _).bind_ok, pure_ok] at h
      obtain ⟨n, _, ⟨hn, rfl⟩, r, _, ⟨-, rfl⟩, rfl, rfl⟩ := h
      exact ⟨hn, by simp [encode]⟩
    · simp only [u64_reads.bind_ok, pure_ok] at h
      obtain ⟨n, _, ⟨hn, rfl⟩, rfl, rfl⟩ := h
      exact ⟨hn, rfl⟩
    · simp only [u64_reads.bind_ok, pure_ok] at h
      obtain ⟨p, _, ⟨hp, rfl⟩, l, _, ⟨hl, rfl⟩, e, _, ⟨he, rfl⟩, rfl, rfl⟩ := h
      exact ⟨⟨hp, hl, he⟩, by simp [encode]⟩
    · simp only [placement_reads.bind_ok, pure_ok] at h
      obtain ⟨e, _, ⟨he, rfl⟩, rfl, rfl⟩ := h
      exact ⟨he, rfl⟩
    · simp only [string_reads.bind_ok, pure_ok] at h
      obtain ⟨k, _, ⟨hk, rfl⟩, v, _, ⟨hv, rfl⟩, rfl, rfl⟩ := h
      exact ⟨⟨hk, hv⟩, by simp [encode]⟩
    · simp only [u64_reads.bind_ok, pure_ok] at h
      obtain ⟨p, _, ⟨hp, rfl⟩, o, _, ⟨ho, rfl⟩, rfl, rfl⟩ := h
      exact ⟨⟨hp, ho⟩, by simp [encode]⟩
    · cases h
  · rintro ⟨hwf, rfl⟩
    cases cmd with
    | addNode n r =>
      refine ⟨1, ofNatLE 8 n ++ ([r.tag] ++ rest), ⟨trivial, by simp [encode]⟩, ?_⟩
      simp only [u64_reads.bind_ok, (role_reads _).bind_ok, pure_ok]
      exact ⟨n, _, ⟨hwf, rfl⟩, r, rest, ⟨trivial, rfl⟩, rfl, rfl⟩
    | removeNode n =>
      refine ⟨2, ofNatLE 8 n ++ rest, ⟨trivial, rfl⟩, ?_⟩
      simp only [u64_reads.bind_ok, pure_ok]
      exact ⟨n, rest, ⟨hwf, rfl⟩, rfl, rfl⟩
    | assignPartition p l e =>
      refine ⟨3, ofNatLE 8 p ++ (ofNatLE 8 l ++ (ofNatLE 8 e ++ rest)),
        ⟨trivial, by simp [encode]⟩, ?_⟩
      simp only [u64_reads.bind_ok, pure_ok]
      exact ⟨p, _, ⟨hwf.1, rfl⟩, l, _, ⟨hwf.2.1, rfl⟩, e, rest, ⟨hwf.2.2, rfl⟩, rfl, rfl⟩
    | placePartition p replicas l e =>
      refine ⟨5, pushPlacement (p, ⟨replicas, l, e⟩) ++ rest, ⟨trivial, rfl⟩, ?_⟩
      simp only [placement_reads.bind_ok]
      exact ⟨(p, ⟨replicas, l, e⟩), rest, ⟨hwf, rfl⟩, pure_ok.mpr ⟨rfl, rfl⟩⟩
    | setConfig k v =>
      refine ⟨4, pushStr k ++ (pushStr v ++ rest), ⟨trivial, by simp [encode]⟩, ?_⟩
      simp only [string_reads.bind_ok, pure_ok]
      exact ⟨k, _, ⟨hwf.1, rfl⟩, v, rest, ⟨hwf.2, rfl⟩, rfl, rfl⟩
    | checkpointCommittedHw p o =>
      refine ⟨6, ofNatLE 8 p ++ (ofNatLE 8 o ++ rest), ⟨trivial, by simp [encode]⟩, ?_⟩
      simp only [u64_reads.bind_ok, pure_ok]
      exact ⟨p, _, ⟨hwf.1, rfl⟩, o, rest, ⟨hwf.2, rfl⟩, rfl, rfl⟩

theorem MetadataCommand.decode_ok {buf : Bytes} {cmd : MetadataCommand} :
    decode buf = .ok cmd ↔ cmd.WellFormed ∧ buf = cmd.encode :=
  (read_reads buf).whole_ok

/-! ## Snapshots -/

namespace MetadataStateMachine

/-- A list whose length and elements are in range. -/
def Listed {α : Type} (dom : α → Prop) (l : List α) : Prop := l.length < 2 ^ 32 ∧ ∀ a ∈ l, dom a

def Parts.InRange (p : Parts) : Prop :=
  p.appliedIndex < 2 ^ 64 ∧ Listed (fun e => e.1 < 2 ^ 64 ∧ True) p.members
    ∧ Listed (fun e => e.1 < 2 ^ 64 ∧ e.2.InRange) p.placements
    ∧ Listed (fun e => e.1 < 2 ^ 64 ∧ e.2 < 2 ^ 64) p.committedHw
    ∧ Listed (fun e => (asBytes e.1).length < 2 ^ 32 ∧ (asBytes e.2).length < 2 ^ 32) p.config

theorem Parts.read_reads : Parts.read.Reads Parts.encode Parts.InRange := by
  have hmembers : (counted 9 (pair u64 (role 0))).Reads (pushCounted pushMember) (Listed _) :=
    counted_reads (pair_reads u64_reads (role_reads 0)) fun e => by simp
  have hplacements : (counted 0 placement).Reads (pushCounted pushPlacement) (Listed _) :=
    counted_reads placement_reads fun _ => Nat.zero_le _
  have hhw : (counted 16 (pair u64 u64)).Reads (pushCounted pushHw) (Listed _) :=
    counted_reads (pair_reads u64_reads u64_reads) fun e => by simp
  have hconfig : (counted 0 (pair string string)).Reads (pushCounted pushConfig) (Listed _) :=
    counted_reads (pair_reads string_reads string_reads) fun _ => Nat.zero_le _
  intro b p rest
  rw [Parts.read, u8_reads.bind_ok]
  constructor
  · rintro ⟨version, _, ⟨-, rfl⟩, h⟩
    split at h
    · cases h
    next hversion =>
    simp only [u64_reads.bind_ok, hmembers.bind_ok, hplacements.bind_ok, hhw.bind_ok,
      hconfig.bind_ok, pure_ok] at h
    obtain ⟨i, _, ⟨hi, rfl⟩, ms, _, ⟨hms, rfl⟩, ps, _, ⟨hps, rfl⟩, hs, _, ⟨hhs, rfl⟩, cs, _,
      ⟨hcs, rfl⟩, rfl, rfl⟩ := h
    obtain rfl := not_not.mp hversion
    exact ⟨⟨hi, hms, hps, hhs, hcs⟩, by simp [Parts.encode]⟩
  · rintro ⟨⟨hi, hms, hps, hhs, hcs⟩, rfl⟩
    refine ⟨snapshotVersion, (Parts.encode p).tail ++ rest, ⟨trivial, rfl⟩, ?_⟩
    rw [if_neg (not_not.mpr rfl)]
    simp only [u64_reads.bind_ok, hmembers.bind_ok, hplacements.bind_ok, hhw.bind_ok,
      hconfig.bind_ok, pure_ok]
    refine ⟨p.appliedIndex, _, ⟨hi, ?_⟩, p.members, _, ⟨hms, rfl⟩, p.placements, _, ⟨hps, rfl⟩,
      p.committedHw, _, ⟨hhs, rfl⟩, p.config, rest, ⟨hcs, rfl⟩, rfl, rfl⟩
    simp [Parts.encode]

theorem restore_ok {buf : Bytes} {s : MetadataStateMachine} :
    restoreFromSnapshot buf = .ok s ↔ ∃ p : Parts, (p.InRange ∧ buf = p.encode) ∧ p.build = s := by
  rw [restoreFromSnapshot]
  simp only [← Parts.read_reads.whole_ok (e := .trailingBytes)]
  cases Parts.read.whole .trailingBytes buf with
  | error e => simp [bind, Except.bind]
  | ok p => simp [bind, Except.bind, pure, Except.pure]

section Entries

variable {μ κ α : Type} [DecidableEq κ] {g : μ → κ → Option α} {ins : μ → κ × α → μ}

omit [DecidableEq κ] in
theorem mem_entriesAt {keys : List κ} {f : κ → Option α} {e : κ × α} :
    e ∈ entriesAt keys f ↔ e.1 ∈ keys ∧ f e.1 = some e.2 := by
  simp only [entriesAt, mem_filterMap, Option.map_eq_some_iff]
  constructor
  · rintro ⟨k, hk, v, hv, rfl⟩
    exact ⟨hk, hv⟩
  · rintro ⟨hk, hv⟩
    exact ⟨e.1, hk, e.2, hv, rfl⟩

/-- What inserting entries binds comes from an entry. -/
theorem mem_of_get_foldl (hins : ∀ m e k, g (ins m e) k = if k = e.1 then some e.2 else g m k)
    {m : μ} {l : List (κ × α)} {k : κ} {v : α} (hm : g m k = none)
    (h : g (l.foldl ins m) k = some v) : (k, v) ∈ l := by
  induction l using reverseRecOn with
  | nil => simp [hm] at h
  | append_singleton l e ih =>
    rw [foldl_append, foldl_cons, foldl_nil, hins] at h
    rw [mem_append, mem_singleton]
    split at h
    · next hk => exact .inr (Prod.ext hk (Option.some.inj h).symm)
    · exact .inl (ih h)

/-- Inserting the entries of a map binds what the map binds. -/
theorem get_foldl_entriesAt
    (hins : ∀ m e k, g (ins m e) k = if k = e.1 then some e.2 else g m k) {m : μ}
    (hm : ∀ k, g m k = none) {keys : List κ} {f : κ → Option α}
    (hkeys : ∀ k v, f k = some v → k ∈ keys) (k : κ) :
    g ((entriesAt keys f).foldl ins m) k = f k := by
  have hsound : ∀ v, g ((entriesAt keys f).foldl ins m) k = some v → f k = some v := fun v h =>
    (mem_entriesAt.mp (mem_of_get_foldl hins (hm k) h)).2
  cases hf : f k with
  | none => exact Option.eq_none_iff_forall_ne_some.mpr fun v hv => by simp [hsound v hv] at hf
  | some v =>
    have hmem : (k, v) ∈ entriesAt keys f := mem_entriesAt.mpr ⟨hkeys k v hf, hf⟩
    -- some entry has the key, and the last one of them is bound
    have hbound : ∀ l : List (κ × α), (k, v) ∈ l → (g (l.foldl ins m) k).isSome := by
      intro l hl
      induction l using reverseRecOn with
      | nil => cases hl
      | append_singleton l e ih =>
        rw [foldl_append, foldl_cons, foldl_nil, hins]
        split
        · rfl
        · next hk =>
          rcases mem_append.mp hl with hl | hl
          · exact ih hl
          · rw [mem_singleton] at hl
            exact absurd (congrArg Prod.fst hl) hk
    obtain ⟨v', hv'⟩ := Option.isSome_iff_exists.mp (hbound _ hmem)
    rw [hv', ← hsound v' hv', hf]

end Entries

theorem get_insert_entry {α : Type} (m : NatMap α) (e : Nat × α) (k : Nat) :
    (m.insert e.1 e.2).get k = if k = e.1 then some e.2 else m.get k := by
  rw [NatMap.get_insert, Function.update_apply]

theorem lookup_insert_entry (m : Assoc String String) (e : String × String) (k : String) :
    AList.lookup k (AList.insert e.1 e.2 m) = if k = e.1 then some e.2 else AList.lookup k m := by
  split
  · next h => rw [h, AList.lookup_insert]
  · next h => rw [AList.lookup_insert_ne h]

/-- Two states hold the same: equality, for maps that are compared by what they bind. -/
structure Same (s t : MetadataStateMachine) : Prop where
  members : s.members.get = t.members.get
  placements : s.placements.get = t.placements.get
  committedHw : s.committedHw.get = t.committedHw.get
  config : ∀ k, s.config.lookup k = t.config.lookup k
  appliedIndex : s.appliedIndex = t.appliedIndex

/-- Every value fits its width, and every placement is led by one of its replicas. -/
structure InRange (s : MetadataStateMachine) : Prop where
  appliedIndex : s.appliedIndex < 2 ^ 64
  members : ∀ n r, s.members.get n = some r → n < 2 ^ 64 ∧ True
  placements : ∀ n p, s.placements.get n = some p → n < 2 ^ 64 ∧ p.InRange
  committedHw : ∀ n o, s.committedHw.get n = some o → n < 2 ^ 64 ∧ o < 2 ^ 64
  config : ∀ k v, s.config.lookup k = some v →
    (asBytes k).length < 2 ^ 32 ∧ (asBytes v).length < 2 ^ 32

/-- No map has more entries than a count can say. -/
def Fits (s : MetadataStateMachine) : Prop :=
  s.members.keys.length < 2 ^ 32 ∧ s.placements.keys.length < 2 ^ 32
    ∧ s.committedHw.keys.length < 2 ^ 32 ∧ s.config.keys.length < 2 ^ 32

variable {s t : MetadataStateMachine}

/-- States that hold the same have the same snapshot. -/
theorem Same.snapshot_eq (h : s.Same t) : s.snapshot = t.snapshot := by
  have hkeys {α : Type} {m m' : NatMap α} (h : m.get = m'.get) : m.keys = m'.keys :=
    NatMap.keys_eq_of_mem_iff m'.keys_sorted fun i => by rw [NatMap.mem_keys, h]
  have hconfig : s.config.keys.mergeSort (· ≤ ·) = t.config.keys.mergeSort (· ≤ ·) := by
    have hperm : s.config.keys.Perm t.config.keys :=
      (perm_ext_iff_of_nodup s.config.keys_nodup t.config.keys_nodup).mpr fun k => by
        rw [← AList.mem_keys, ← AList.mem_keys, ← AList.lookup_isSome, ← AList.lookup_isSome,
          h.config]
    have hsorted (l : List String) : (l.mergeSort (· ≤ ·)).Pairwise (· ≤ ·) := by
      simpa using @List.pairwise_mergeSort _ (fun a b : String => decide (a ≤ b))
        (fun a b c => by simpa using le_trans) (fun a b => by simpa using le_total a b) l
    exact (((mergeSort_perm _ _).trans hperm).trans (mergeSort_perm _ _).symm
      ).eq_of_pairwise (fun a b _ _ => le_antisymm) (hsorted _) (hsorted _)
  rw [snapshot, snapshot, parts, parts, configEntries, configEntries, hconfig, hkeys h.members,
    hkeys h.placements, hkeys h.committedHw, h.members, h.placements, h.committedHw,
    funext h.config, h.appliedIndex]

/-- A snapshot is restored to what it was made of. -/
theorem restore_snapshot (h : s.InRange) (hfits : s.Fits) :
    ∃ s', restoreFromSnapshot s.snapshot = .ok s' ∧ s'.Same s := by
  have hlisted {κ α : Type} {dom : κ × α → Prop} {keys : List κ} {f : κ → Option α}
      (hlen : keys.length < 2 ^ 32) (hdom : ∀ k v, f k = some v → dom (k, v)) :
      Listed dom (entriesAt keys f) :=
    ⟨(length_filterMap_le _ _).trans_lt hlen,
      fun e he => hdom e.1 e.2 (mem_entriesAt.mp he).2⟩
  obtain ⟨hm, hp, hw, hc⟩ := hfits
  have hrange : s.parts.InRange :=
    ⟨h.appliedIndex, hlisted hm h.members, hlisted hp h.placements, hlisted hw h.committedHw,
      hlisted ((length_mergeSort _).trans_lt hc) h.config⟩
  have hmap {α : Type} (m : NatMap α) :
      (((entriesAt m.keys m.get).foldl (fun m e => m.insert e.1 e.2) .empty : NatMap α)).get
        = m.get :=
    funext (get_foldl_entriesAt get_insert_entry NatMap.get_empty
      fun k v hv => NatMap.mem_keys.mpr ⟨v, hv⟩)
  refine ⟨_, restore_ok.mpr ⟨s.parts, ⟨hrange, rfl⟩, rfl⟩, hmap _, hmap _, hmap _, ?_, rfl⟩
  exact get_foldl_entriesAt (g := fun m k => AList.lookup k m) lookup_insert_entry
    (fun k => AList.lookup_empty k) fun k v hv => mem_mergeSort.mpr
      (AList.mem_keys.mp (AList.lookup_isSome.mp (by rw [hv]; rfl)))

/-- What a restored state places is led by one of its replicas. -/
theorem restore_placement {buf : Bytes} (h : restoreFromSnapshot buf = .ok s) {n : Nat}
    {p : Placement} (hp : s.placements.get n = some p) : p.InRange := by
  obtain ⟨parts, ⟨hrange, -⟩, rfl⟩ := restore_ok.mp h
  exact (hrange.2.2.1.2 _ (mem_of_get_foldl get_insert_entry (NatMap.get_empty n) hp)).2

/-! ## The committed log -/

/-- A committed entry of the metadata log. -/
inductive LogEntry where
  | command (index : Nat) (data : Bytes)
  | membership (index : Nat) (cs : ConfState)

/-- Indices and nodes are `u64`. -/
def LogEntry.InRange : LogEntry → Prop
  | .command index _ => index < 2 ^ 64
  | .membership index cs => index < 2 ^ 64
    ∧ ∀ n ∈ cs.learners ++ cs.learnersNext ++ (cs.voters ++ cs.votersOutgoing), n < 2 ^ 64

def applyLogEntry (s : MetadataStateMachine) :
    LogEntry → Except MetadataDecodeError MetadataStateMachine
  | .command index data => s.applyEncoded index data
  | .membership index cs => .ok (s.setMembership index cs)

def applyLog (s : MetadataStateMachine) (log : List LogEntry) :
    Except MetadataDecodeError MetadataStateMachine := log.foldlM applyLogEntry s

/-- Both fail alike, or end in states that hold the same. -/
def SameResult : Except MetadataDecodeError MetadataStateMachine →
    Except MetadataDecodeError MetadataStateMachine → Prop
  | .ok s, .ok t => s.Same t
  | .error e, .error e' => e = e'
  | _, _ => False

theorem Same.apply (h : s.Same t) (index : Nat) (cmd : MetadataCommand) :
    (s.apply index cmd).Same (t.apply index cmd) := by
  have hins {α : Type} {m m' : NatMap α} (hget : m.get = m'.get) (n : Nat) (a : α) :
      (m.insert n a).get = (m'.insert n a).get := by rw [NatMap.get_insert, NatMap.get_insert, hget]
  obtain ⟨hm, hp, hw, hc, -⟩ := h
  cases cmd with
  | addNode n r => exact ⟨hins hm n r, hp, hw, hc, rfl⟩
  | removeNode n =>
    refine ⟨funext fun k => ?_, hp, hw, hc, rfl⟩
    show (if k = n then none else s.members.get k) = if k = n then none else t.members.get k
    rw [hm]
  | assignPartition p l e => exact ⟨hm, hins hp p _, hw, hc, rfl⟩
  | placePartition p r l e => exact ⟨hm, hins hp p _, hw, hc, rfl⟩
  | setConfig k v =>
    refine ⟨hm, hp, hw, fun k' => ?_, rfl⟩
    have hs := lookup_insert_entry s.config (k, v) k'
    rw [hc k'] at hs
    exact hs.trans (lookup_insert_entry t.config (k, v) k').symm
  | checkpointCommittedHw p o =>
    refine ⟨hm, hp, ?_, hc, rfl⟩
    show (s.committedHw.insert p (max ((s.committedHw.get p).getD 0) o)).get = _
    rw [congrFun hw p]
    exact hins hw p _

theorem Same.applyLog (h : s.Same t) (log : List LogEntry) :
    SameResult (s.applyLog log) (t.applyLog log) := by
  induction log generalizing s t with
  | nil => exact h
  | cons e log ih =>
    cases e with
    | membership index cs =>
      exact ih ⟨rfl, h.placements, h.committedHw, h.config, rfl⟩
    | command index data =>
      simp only [applyLog, foldlM_cons, applyLogEntry, applyEncoded]
      cases decode data with
      | error e => rfl
      | ok cmd => exact ih (h.apply index cmd)

/-- Binding one more value in range keeps every value in range. -/
theorem forall_get_insert {α : Type} {m : NatMap α} {dom : Nat → α → Prop} {n : Nat} {a : α}
    (hm : ∀ k v, m.get k = some v → dom k v) (ha : dom n a) :
    ∀ k v, (m.insert n a).get k = some v → dom k v := by
  intro k v hv
  rw [get_insert_entry m (n, a)] at hv
  split at hv
  · next hk => exact hk ▸ Option.some.inj hv ▸ ha
  · exact hm k v hv

theorem InRange.apply (h : s.InRange) {index : Nat} (hi : index < 2 ^ 64) {cmd : MetadataCommand}
    (hcmd : cmd.WellFormed) : (s.apply index cmd).InRange := by
  obtain ⟨-, hm, hp, hw, hc⟩ := h
  cases cmd with
  | addNode n r => exact ⟨hi, forall_get_insert hm ⟨hcmd, trivial⟩, hp, hw, hc⟩
  | removeNode n =>
    exact ⟨hi, fun k v hv => hm k v (Option.ite_none_left_eq_some.mp hv).2, hp, hw, hc⟩
  | assignPartition p l e =>
    obtain ⟨hpart, hl, he⟩ := hcmd
    have hrange : (Placement.leaderOnly l e).InRange :=
      ⟨⟨by simp [Placement.leaderOnly], by simpa [Placement.leaderOnly] using hl⟩,
        mem_singleton_self l, he⟩
    exact ⟨hi, hm, forall_get_insert hp ⟨hpart, hrange⟩, hw, hc⟩
  | placePartition p r l e => exact ⟨hi, hm, forall_get_insert hp hcmd, hw, hc⟩
  | setConfig k v =>
    refine ⟨hi, hm, hp, hw, fun k' v' hv => ?_⟩
    have hv := (lookup_insert_entry s.config (k, v) k').symm.trans hv
    split at hv
    · next hk => exact hk ▸ Option.some.inj hv ▸ hcmd
    · exact hc k' v' hv
  | checkpointCommittedHw p o =>
    refine ⟨hi, hm, hp, forall_get_insert hw ⟨hcmd.1, max_lt ?_ hcmd.2⟩, hc⟩
    cases hbar : s.committedHw.get p with
    | none => decide
    | some bar => exact (hw p bar hbar).2

theorem InRange.setMembership (h : s.InRange) {index : Nat} {cs : ConfState}
    (he : (LogEntry.membership index cs).InRange) : (s.setMembership index cs).InRange := by
  have hfold (role : NodeRole) {m : NatMap NodeRole} (l : List Nat)
      (hm : ∀ k v, m.get k = some v → k < 2 ^ 64 ∧ True) (hl : ∀ n ∈ l, n < 2 ^ 64) :
      ∀ k v, (l.foldl (fun m n => m.insert n role) m).get k = some v → k < 2 ^ 64 ∧ True := by
    induction l generalizing m with
    | nil => exact hm
    | cons n l ih =>
      obtain ⟨hn, hl⟩ := forall_mem_cons.mp hl
      exact ih (forall_get_insert hm ⟨hn, trivial⟩) hl
  exact ⟨he.1, hfold _ _ (hfold _ _ nofun fun n hn => he.2 n (mem_append_left _ hn))
    fun n hn => he.2 n (mem_append_right _ hn), h.placements, h.committedHw, h.config⟩

theorem new_inRange : new.InRange := by
  constructor <;> simp [new]

theorem InRange.applyLog {log : List LogEntry} (hs : s.InRange) (hlog : ∀ e ∈ log, e.InRange)
    (h : s.applyLog log = .ok t) : t.InRange := by
  induction log generalizing s with
  | nil => exact Except.ok.inj h ▸ hs
  | cons e log ih =>
    obtain ⟨he, hrest⟩ := forall_mem_cons.mp hlog
    cases e with
    | membership index cs => exact ih (hs.setMembership he) hrest h
    | command index data =>
      simp only [applyLog, foldlM_cons, applyLogEntry, applyEncoded] at h
      cases hdec : decode data with
      | error e => simp [hdec, bind, Except.bind] at h
      | ok cmd =>
        rw [hdec] at h
        exact ih (hs.apply he (decode_ok.mp hdec).1) hrest h

/-- A node that restores a snapshot and applies the rest of the log holds what a node holds that
applied the whole log, for any part of the log whose state no count of the snapshot cuts short. A
command is read back if it is in range and its leader is a replica, and nothing else is accepted;
a restored placement is led by one of its replicas; equal contents have equal snapshots. -/
theorem metadata_replay (front rest : List LogEntry) (s t : MetadataStateMachine)
    (buf : Bytes) (cmd : MetadataCommand) :
    ((∀ e ∈ front, e.InRange) → new.applyLog front = .ok s → s.Fits →
        ∃ s', restoreFromSnapshot s.snapshot = .ok s' ∧ s'.Same s
          ∧ SameResult (s'.applyLog rest) (new.applyLog (front ++ rest)))
      ∧ (decode buf = .ok cmd ↔ cmd.WellFormed ∧ buf = cmd.encode)
      ∧ (restoreFromSnapshot buf = .ok s → ∀ n p, s.placements.get n = some p →
          p.replicas ≠ [] ∧ p.leader ∈ p.replicas)
      ∧ (s.Same t → s.snapshot = t.snapshot) := by
  refine ⟨fun hrange hfront hfits => ?_, decode_ok, fun h n p hp => ?_,
    Same.snapshot_eq⟩
  · have hs : s.InRange := new_inRange.applyLog hrange hfront
    obtain ⟨s', hrestore, hsame⟩ := restore_snapshot hs hfits
    have hall : new.applyLog (front ++ rest) = s.applyLog rest := by
      rw [applyLog, List.foldlM_append]
      show new.applyLog front >>= _ = _
      rw [hfront]
      rfl
    exact ⟨s', hrestore, hsame, hall ▸ hsame.applyLog rest⟩
  · have hmem := (restore_placement h hp).leader_mem
    exact ⟨List.ne_nil_of_mem hmem, hmem⟩

/-- A checkpoint below the bar, applied to the restored state. -/
theorem metadata_replay_lower_bar :
    ∃ s', restoreFromSnapshot (new.apply 1 (.checkpointCommittedHw 0 9)).snapshot = .ok s'
      ∧ s'.Same (new.apply 1 (.checkpointCommittedHw 0 9))
      ∧ SameResult
        (s'.applyLog [.command 2 (encode (.checkpointCommittedHw 0 4))])
        (new.applyLog [.command 1 (encode (.checkpointCommittedHw 0 9)),
          .command 2 (encode (.checkpointCommittedHw 0 4))]) :=
  (metadata_replay [.command 1 (encode (.checkpointCommittedHw 0 9))]
    [.command 2 (encode (.checkpointCommittedHw 0 4))]
    (new.apply 1 (.checkpointCommittedHw 0 9)) new [] (.removeNode 0)).1
    (fun e he => List.mem_singleton.mp he ▸ show 1 < 2 ^ 64 by decide) rfl
    ⟨by decide, by decide, by decide, by decide⟩

/-- A placement led from outside its replicas is written and refused when it is read, and one with
more replicas than a count can say is not read back. -/
theorem foreign_leader_not_decoded :
    decode (encode (.placePartition 0 [1, 2] 3 1))
        = .error .leaderNotAReplica
      ∧ decode
          (encode (.placePartition 0 (List.replicate (2 ^ 32) 1) 1 1))
        ≠ .ok (.placePartition 0 (List.replicate (2 ^ 32) 1) 1 1) := by
  refine ⟨by decide, fun h => ?_⟩
  have hlen : (List.replicate (2 ^ 32) 1).length < 2 ^ 32 :=
    (decode_ok.mp h).1.2.replicas_lt.1
  rw [List.length_replicate] at hlen
  exact lt_irrefl _ hlen

end MetadataStateMachine

end IronBus
