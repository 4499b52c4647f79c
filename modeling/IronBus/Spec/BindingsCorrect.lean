import IronBus.Native.Bindings
import IronBus.Spec.CheckpointCorrect
import IronBus.Spec.SharedWalIndex

/-!
# Bindings across failures and restarts

A bind writes a snapshot of the whole registry before it installs the new trie.

Key results:
- `bindSubject_cases`, `bindings_of_bindSubject_error`: a bind that fails changes nothing in memory
- `bindings_kept`: every run keeps the bindings it took, also across restarts
- `bind_refused_returns`: a write that failed has completed its slot, and the next opening finds
  the binding that was refused
-/

namespace IronBus

open BindingTable StreamId List BindingsEngine

/-! ## The snapshot -/

theorem takeLenPrefixed_encode {field : Bytes} (rest : Bytes) (h : field.length < 2 ^ 32) :
    takeLenPrefixed (encodeLenPrefixed field ++ rest) = some (field, rest) := by
  have hmin : min field.length (2 ^ 32 - 1) = field.length := by omega
  simp only [takeLenPrefixed, encodeLenPrefixed, append_assoc, hmin]
  rw [takeBytes_append (by simp)]
  simp only [Option.bind_eq_bind, Option.bind_some]
  rw [Bytes.toNatLE_ofNatLE (by omega), takeBytes_append rfl]

theorem Text.fromUtf8_bytes (t : Text) : Text.fromUtf8 t.bytes = some t := by
  rw [Text.fromUtf8, dif_pos t.utf8]

/-- A stream is found again under its name, the default one under the empty name. -/
theorem StreamId.ofName_name (id : StreamId) : ofName id.name = some id := by
  unfold ofName
  split
  · next h => rw [← ext_name (a := id) (b := defaultStream) h]
  · next h => exact named_name (by simpa [isDefault] using h)

theorem StreamId.name_spec (id : StreamId) : id.name.length ≤ 128 ∧ id.name.validUtf8 = true := by
  rcases id.valid with h | h
  · rw [h]
    exact ⟨Nat.zero_le _, rfl⟩
  · exact valid_name h

theorem decodeBinding_encode (b : Binding) (rest : Bytes) (h : b.1.bytes.length < 2 ^ 32) :
    decodeBinding (encodeBinding b ++ rest) = some (b, rest) := by
  obtain ⟨hlen, hutf⟩ := b.2.name_spec
  have hname : Text.fromUtf8 b.2.name = some ⟨b.2.name, hutf⟩ := dif_pos hutf
  simp only [decodeBinding, encodeBinding, append_assoc]
  rw [takeLenPrefixed_encode _ h]
  simp only [Option.bind_eq_bind, Option.bind_some]
  rw [takeLenPrefixed_encode _ (by omega)]
  simp only [Option.bind_some, Text.fromUtf8_bytes, hname, ofName_name, pure]

theorem decodeBindings_encode {bs : List Binding} (rest : Bytes)
    (h : ∀ b ∈ bs, b.1.bytes.length < 2 ^ 32) :
    decodeBindings bs.length (bs.flatMap encodeBinding ++ rest) = some (bs, rest) := by
  induction bs with
  | nil => rfl
  | cons b bs ih =>
    rw [length_cons, decodeBindings, flatMap_cons, append_assoc,
      decodeBinding_encode b _ (h b mem_cons_self)]
    simp only [Option.bind_eq_bind, Option.bind_some,
      ih fun b' hb' => h b' (mem_cons_of_mem _ hb'), pure]

/-- What a snapshot's size says about its entries. -/
theorem BindingTable.lengths_lt {t : BindingTable} (h : t.snapshotPayload.length < 2 ^ 32) :
    t.entries.length < 2 ^ 32 ∧ ∀ b ∈ t.entries, b.1.bytes.length < 2 ^ 32 := by
  simp only [snapshotPayload, length_append, length_flatMap] at h
  have hentry (b : Binding) : 8 + b.1.bytes.length ≤ (encodeBinding b).length := by
    simp only [encodeBinding, encodeLenPrefixed, length_append, Bytes.length_ofNatLE]
    omega
  constructor
  · have hsum : (t.entries.map fun _ => 1).sum ≤
        (t.entries.map fun b => (encodeBinding b).length).sum :=
      sum_le_sum fun b _ => by have := hentry b; omega
    simp at hsum
    omega
  · intro b hb
    have hle := single_le_sum (fun n _ => Nat.zero_le n) _
      (mem_map_of_mem (f := fun b => (encodeBinding b).length) hb)
    have := hentry b
    omega

/-- Any snapshot that fits a slot is read back as the registry it was made from. -/
theorem decodeBindingsSnapshot_payload {t : BindingTable} (h : t.snapshotPayload.length < 2 ^ 32) :
    decodeBindingsSnapshot t.snapshotPayload = some t.entries := by
  obtain ⟨hcount, hlen⟩ := lengths_lt h
  have hmin : min t.entries.length (2 ^ 32 - 1) = t.entries.length := by omega
  simp only [decodeBindingsSnapshot, BindingTable.snapshotPayload, append_assoc, hmin]
  rw [takeBytes_append (show 1 = [bindingsSnapshotVersion].length from rfl)]
  simp only [Option.bind_eq_bind, Option.bind_some, if_true]
  rw [takeBytes_append (by simp)]
  simp only [Option.bind_some]
  have hentries := decodeBindings_encode [] hlen
  rw [append_nil] at hentries
  rw [Bytes.toNatLE_ofNatLE (by omega), hentries]
  simp

/-! ## The table -/

section Table

variable [Checksums]

namespace BindingTable

/-- The trie in use is the one of the registry. -/
structure Installed (t : BindingTable) : Prop where
  current : ∃ trie, t.build = .ok trie ∧ t.snapshot.current.nodes = trie.nodes
    ∧ t.snapshot.current.targets = trie.targets
  fits : t.snapshotPayload.length ≤ bindingsPayload

variable {t : BindingTable}

theorem new_installed : new.Installed := ⟨⟨emptySublist, rfl, rfl, rfl⟩, by decide⟩

/-- The registry of a table in use can be read back and built again. -/
theorem Installed.rebuilt (h : t.Installed) :
    ∃ t', decodeBindingsSnapshot t.snapshotPayload = some t.entries
      ∧ fromEntries t.entries = .ok t' ∧ t'.entries = t.entries ∧ t'.Installed := by
  obtain ⟨trie, hbuild, -, -⟩ := h.current
  have hsame : (⟨t.entries, .empty⟩ : BindingTable).build = .ok trie := hbuild
  refine ⟨⟨t.entries, SublistSnapshot.empty.store trie⟩,
    decodeBindingsSnapshot_payload (h.fits.trans_lt (by decide)), ?_, rfl,
    ⟨⟨trie, hbuild, rfl, rfl⟩, h.fits⟩⟩
  rw [fromEntries, hsame]

theorem commit_installed {trie : Sublist StreamId} (hbuild : t.build = .ok trie)
    (hfits : t.snapshotPayload.length ≤ bindingsPayload) : (t.commit trie).Installed :=
  ⟨⟨trie, hbuild, rfl, rfl⟩, hfits⟩

omit [Checksums] in
@[simp] theorem unstage_append (t : BindingTable) (b : Binding) :
    unstage { t with entries := t.entries ++ [b] } = t := by
  simp [unstage]

/-- What staging does: nothing, or one more entry whose trie is built. -/
theorem stage_cases (t : BindingTable) (pattern : Text) (stream : StreamId) :
    (∃ e, t.stage pattern stream = (.error e, t))
    ∨ ((pattern, stream) ∈ t.entries ∧ t.stage pattern stream = (.ok none, t))
    ∨ ∃ trie, ({ t with entries := t.entries ++ [(pattern, stream)] } : BindingTable).build =
      .ok trie
      ∧ t.stage pattern stream =
        (.ok (some trie), { t with entries := t.entries ++ [(pattern, stream)] }) := by
  unfold stage
  split
  · exact .inl ⟨_, rfl⟩
  · split
    · next hmem => exact .inr (.inl ⟨hmem, rfl⟩)
    · dsimp only
      split
      · next trie hbuild => exact .inr (.inr ⟨trie, hbuild, rfl⟩)
      · rw [unstage_append]
        exact .inl ⟨_, rfl⟩

end BindingTable

end Table

/-! ## One bind -/

namespace BindingsEngine

open Checkpoint

section Bind

variable [Checksums]

/-- What the checkpoint file holds for a registry; before the first bind nothing is written. -/
def stored (table : List Binding) : Option Bytes :=
  if table = [] then none else some (⟨table, .empty⟩ : BindingTable).snapshotPayload

/-- The sequence number of the next snapshot. -/
def nextSeq (e : BindingsEngine) : Nat := (e.checkpoint.map (·.nextSeq)).getD 1

/-- The engine's file holds `content`, and its handle writes under `n` next. -/
structure Keeps (e : BindingsEngine) (content : Option Bytes) (n : Nat) : Prop where
  file : Settled bindingsPayload (e.file.getD []) n content
  handle : ∀ h, e.checkpoint = some h → h.nextSeq = n
  unopened : e.checkpoint = none → n = 1

/-- What a snapshot's write under the number `n` does to the file if it fails: it stops short of
completing the slot it is for. It does not fail behind the positioned write, neither in the sync nor
for want of a next number. -/
structure StopsShort (file : Bytes) (n : Nat) (io : Checkpoint.WriteIo) : Prop where
  torn : ∀ torn, io = .writeFailed torn →
    Confined bindingsPayload file n torn ∧ Incomplete bindingsPayload torn n
  synced : io ≠ .syncFailed
  room : n < u64Max

variable {e : BindingsEngine} {content : Option Bytes} {n : Nat} {payload : Bytes} {io : BindIo}

section

variable (h : e.Keeps content n)

include h

theorem Keeps.nextSeq_eq : e.nextSeq = n := by
  unfold nextSeq
  cases hc : e.checkpoint with
  | none => exact (h.unopened hc).symm
  | some c => exact h.handle c hc

/-- Opening the checkpoint file at a bind changes none of its bytes. -/
theorem Keeps.ensure (hn : n ≤ u64Max) (io : EnsureIo) :
    ∃ e', e'.bindings = e.bindings ∧ e'.Keeps content n ∧ e'.file.getD [] = e.file.getD []
      ∧ (e.ensureBindingsCheckpoint io = (.error .storage, e')
        ∨ e.ensureBindingsCheckpoint io = (.ok ⟨n⟩, e')) := by
  unfold ensureBindingsCheckpoint
  cases hc : e.checkpoint with
  | some c =>
    obtain rfl : c = ⟨n⟩ := by rw [← h.handle c hc]
    exact ⟨e, rfl, h, rfl, .inr rfl⟩
  | none =>
    have hmade : Settled bindingsPayload ((some (e.file.getD [])).getD []) n content := h.file
    cases io with
    | failed => exact ⟨e, rfl, h, rfl, .inl rfl⟩
    | unsynced =>
      refine ⟨{ e with file := some (e.file.getD []) }, rfl, ⟨hmade, h.handle, h.unopened⟩, rfl,
        .inl ?_⟩
      rw [hc]
    | ok =>
      refine ⟨{ e with checkpoint := some ⟨n⟩, file := some (e.file.getD []) }, rfl,
        ⟨hmade, ?_, nofun⟩, rfl, .inr ?_⟩
      · rintro c ⟨⟩
        rfl
      · simp only [h.file.open_eq hn]

/-- What writing a snapshot does: it is stored, or the write failed and the file holds what it
held. -/
theorem Keeps.persist (hp : payload.length ≤ bindingsPayload) (io : BindIo)
    (hio : StopsShort (e.file.getD []) n io.write) :
    ∃ e', e'.bindings = e.bindings ∧
      ((e.persist io payload = (.ok (), e') ∧ e'.Keeps (some payload) (n + 1))
      ∨ ∃ err, e.persist io payload = (.error err, e') ∧ e'.Keeps content n) := by
  have hroom : n + 1 ≤ u64Max := hio.room
  have hn : n ≤ u64Max := by omega
  obtain ⟨e₁, hbindings, hkeeps, hfile, hensure | hensure⟩ := h.ensure hn io.ensure
  · refine ⟨e₁, hbindings, .inr ⟨.storage, ?_, hkeeps⟩⟩
    rw [BindingsEngine.persist, hensure]
  · have hpos : 0 < n := by
      cases hc : content with
      | none => rw [(h.file.fresh hc).1]; omega
      | some p => have := (h.file.anchor p hc).1; omega
    have hcap : bindingsPayload ≤ 65535 := by decide
    let written := (e.file.getD []).writeAt (slotOffset bindingsPayload n)
      (encodeSlot bindingsPayload n payload)
    have hconf : Confined bindingsPayload (e.file.getD []) n written :=
      (@tears_writeAt _ _ _ _ _ [] hcap hpos hn hp).confined
    have hdec := decodeSlot_writeAt (e.file.getD []) hcap hpos hn hp
    rw [BindingsEngine.persist, hensure]
    dsimp only
    rw [Checkpoint.write, if_neg (by omega), hfile]
    cases hw : io.write with
    | writeFailed torn =>
      -- the file differs in one slot at most, which is no snapshot, and the handle is the same
      obtain ⟨htorn, hinc⟩ := hio.torn torn hw
      refine ⟨{ e₁ with checkpoint := some ⟨n⟩, file := some torn }, hbindings, .inr ⟨_, rfl,
        h.file.torn htorn hinc, ?_, fun hc => by cases hc⟩⟩
      rintro c ⟨⟩
      rfl
    | syncFailed => exact absurd hw hio.synced
    | ok =>
      simp only [checkedAdd, if_pos hroom]
      refine ⟨{ e₁ with checkpoint := some ⟨n + 1⟩, file := some written }, hbindings,
        .inl ⟨rfl, h.file.completed hconf hdec, ?_, fun hc => by cases hc⟩⟩
      rintro c ⟨⟩
      rfl

end

/-- A running engine routes by the registry `table`, and its file holds it. -/
structure Holds (e : BindingsEngine) (table : List Binding) (n : Nat) : Prop where
  entries : e.bindings.entries = table
  installed : e.bindings.Installed
  keeps : e.Keeps (stored table) n

/-- What a bind does: it stops before the checkpoint with or without an error and changes nothing,
or it stages its entry and goes by the outcome of the snapshot's write. -/
theorem bindSubject_cases (e : BindingsEngine) (io : BindIo) (stream pattern : Text) :
    (∃ err, e.bindSubject io stream pattern = (.error err, e))
    ∨ ∃ id, bindTarget io stream = .ok id ∧
      ((∃ g, e.bindSubject io stream pattern = (.ok g, e) ∧ (pattern, id) ∈ e.bindings.entries)
      ∨ ∃ staged trie, staged.entries = e.bindings.entries ++ [(pattern, id)]
        ∧ staged.build = .ok trie ∧ staged.snapshotPayload.length ≤ bindingsPayload
        ∧ e.bindSubject io stream pattern =
          match { e with bindings := staged }.persist io staged.snapshotPayload with
          | (.error err, e') => (.error err, { e' with bindings := e.bindings })
          | (.ok (), e') => (.ok (staged.commit trie).snapshot.current.generation,
              { e' with bindings := staged.commit trie })) := by
  unfold bindSubject
  cases Subject.parsePattern pattern.bytes with
  | error err => exact .inl ⟨_, rfl⟩
  | ok _ =>
    cases bindTarget io stream with
    | error err => exact .inl ⟨_, rfl⟩
    | ok id =>
      dsimp only
      rcases e.bindings.stage_cases pattern id with ⟨err, hs⟩ | ⟨hmem, hs⟩ | ⟨trie, hbuild, hs⟩
      · rw [hs]
        exact .inl ⟨_, rfl⟩
      · rw [hs]
        exact .inr ⟨id, rfl, .inl ⟨_, rfl, hmem⟩⟩
      · rw [hs]
        dsimp only
        rw [unstage_append]
        split
        · exact .inl ⟨_, rfl⟩
        · next hfits =>
            exact .inr ⟨id, rfl, .inr ⟨_, trie, rfl, hbuild, not_lt.mp hfits, rfl⟩⟩

/-- In memory a bind that fails changes nothing, whatever the storage did. -/
theorem bindings_of_bindSubject_error {e' : BindingsEngine} {stream pattern : Text}
    {err : BindError} (h : e.bindSubject io stream pattern = (.error err, e')) :
    e'.bindings = e.bindings := by
  rcases e.bindSubject_cases io stream pattern with
    ⟨_, hb⟩ | ⟨_, -, ⟨_, hb, -⟩ | ⟨staged, trie, -, -, -, hb⟩⟩
  · cases hb.symm.trans h
    rfl
  · cases hb.symm.trans h
  · rw [hb] at h
    split at h
    · cases h
      rfl
    · cases h

/-- What a bind does to the file: it fails and the file holds what it held, it finds its entry
registered, or it stores the table with the new entry. -/
theorem Holds.bindSubject {table : List Binding} (h : e.Holds table n) (io : BindIo)
    (stream pattern : Text) (hio : StopsShort (e.file.getD []) n io.write) :
    (∃ err e', e.bindSubject io stream pattern = (.error err, e') ∧ e'.Keeps (stored table) n)
    ∨ ∃ g e', e.bindSubject io stream pattern = (.ok g, e') ∧ (e' = e
      ∨ ∃ id, e'.Holds (table ++ [(pattern, id)]) (n + 1)) := by
  rcases e.bindSubject_cases io stream pattern with
    ⟨err, hb⟩ | ⟨id, -, ⟨g, hb, -⟩ | ⟨staged, trie, hentries, hbuild, hfits, hb⟩⟩
  · exact .inl ⟨err, e, hb, h.keeps⟩
  · exact .inr ⟨g, e, hb, .inl rfl⟩
  · have hkeeps : ({ e with bindings := staged } : BindingsEngine).Keeps (stored table) n :=
      ⟨h.keeps.file, h.keeps.handle, h.keeps.unopened⟩
    obtain ⟨e', -, ⟨hok, hkeeps'⟩ | ⟨err, herr, hkeeps'⟩⟩ := hkeeps.persist hfits io hio
    · rw [hok] at hb
      rw [h.entries] at hentries
      have hstored : stored (table ++ [(pattern, id)]) = some staged.snapshotPayload := by
        rw [stored, if_neg (by simp), ← hentries]
        rfl
      refine .inr ⟨_, _, hb, .inr ⟨id, hentries, commit_installed hbuild hfits, ?_⟩⟩
      rw [hstored]
      exact ⟨hkeeps'.file, hkeeps'.handle, hkeeps'.unopened⟩
    · rw [herr] at hb
      exact .inl ⟨_, _, hb, hkeeps'.file, hkeeps'.handle, hkeeps'.unopened⟩

/-- An engine opens over a file that holds the table. -/
theorem open_of_settled {file : Option Bytes} {t : BindingTable}
    (hfile : Settled bindingsPayload (file.getD []) n (stored t.entries)) (hn : n ≤ u64Max)
    (ht : t.Installed) : ∃ e, BindingsEngine.open file = .ok e ∧ e.Holds t.entries n := by
  by_cases hempty : t.entries = []
  · rw [hempty, stored, if_pos rfl] at hfile
    rw [hempty]
    cases file with
    | none =>
      refine ⟨_, rfl, rfl, new_installed, hfile, nofun, fun _ => (hfile.fresh rfl).1⟩
    | some bytes =>
      refine ⟨⟨.new, some ⟨n⟩, some bytes⟩, ?_, rfl, new_installed, hfile, ?_, nofun⟩
      · have hopen : Checkpoint.open bindingsPayload bytes = .ok (⟨n⟩, .empty) := hfile.open_eq hn
        simp only [BindingsEngine.open, hopen]
      · rintro c ⟨⟩
        rfl
  · have hstored : stored t.entries = some t.snapshotPayload := if_neg hempty
    cases file with
    | none =>
      have := (hfile.anchor _ hstored).2.1
      exact absurd this (by decide)
    | some bytes =>
      obtain ⟨t', hdecode, hfrom, hentries, ht'⟩ := ht.rebuilt
      refine ⟨⟨t', some ⟨n⟩, some bytes⟩, ?_, hentries, ht', hfile, ?_, nofun⟩
      · have hopen := hfile.open_eq hn
        rw [hstored] at hopen
        simp only [Option.getD_some, Recovered.ofStored] at hopen
        simp only [BindingsEngine.open, hopen, hdecode, hfrom]
      · rintro c ⟨⟩
        rfl

end Bind

end BindingsEngine

/-! ## Runs -/

namespace BindingsEngine

open Checkpoint

section Runs

variable [Checksums]

/-- An engine and its checkpoint file across crashes and restarts. -/
structure World where
  engine : Option BindingsEngine
  /-- The file an opening reads. -/
  file : Option Bytes
  /-- The file as a crash restores it outside the slot being written. -/
  durable : Option Bytes
  /-- The bindings that were acknowledged, and those whose bind a crash cut short. -/
  table : List Binding

def World.fresh : World := ⟨none, none, none, []⟩

/-- The world after a bind. A bind that adds an entry has synced the file. -/
def World.bind (w : World) (e : BindingsEngine) (io : BindIo) (stream pattern : Text) : World :=
  match e.bindSubject io stream pattern with
  | (.error _, e') => { w with engine := some e' }
  | (.ok _, e') =>
    if e'.bindings.entries = w.table then { w with engine := some e' }
    else ⟨some e', e'.file, e'.file, e'.bindings.entries⟩

/-- One step of a run. The conditions are on the storage: a snapshot's write that fails stops short
of completing its slot, a crash outside a bind leaves no completed slot either, and the last
sequence number is not used. -/
inductive Step : World → World → Prop
  | bind {w : World} {e : BindingsEngine} (io : BindIo) (stream pattern : Text)
      (hrun : w.engine = some e) (hio : StopsShort (e.file.getD []) e.nextSeq io.write) :
      Step w (w.bind e io stream pattern)
  | stop {w : World} {e : BindingsEngine} (hrun : w.engine = some e) :
      Step w { w with engine := none, file := e.file }
  | crash {w : World} {e : BindingsEngine} (img : Option Bytes) (hrun : w.engine = some e)
      (htorn : Confined bindingsPayload (w.durable.getD []) e.nextSeq (img.getD []))
      (hclean : Incomplete bindingsPayload (img.getD []) e.nextSeq) :
      Step w { w with engine := none, file := img, durable := img }
  | crashInBind {w : World} {e : BindingsEngine} {pattern : Text} {id : StreamId}
      {trie : Sublist StreamId} {staged : BindingTable} (img : Option Bytes)
      (hrun : w.engine = some e)
      (hstage : e.bindings.stage pattern id = (.ok (some trie), staged))
      (hfits : staged.snapshotPayload.length ≤ bindingsPayload)
      (htorn : Confined bindingsPayload (w.durable.getD []) e.nextSeq (img.getD []))
      (hdone : decodeSlot bindingsPayload ((img.getD []).readAt
        (slotOffset bindingsPayload e.nextSeq) (slotLen bindingsPayload))
          = .valid e.nextSeq staged.snapshotPayload)
      (hroom : e.nextSeq < u64Max) :
      Step w ⟨none, img, img, staged.entries⟩
  | powerLoss {w : World} (hdown : w.engine = none) : Step w { w with file := w.durable }
  | reopen {w : World} {e : BindingsEngine} (hdown : w.engine = none)
      (hopen : BindingsEngine.open w.file = .ok e) : Step w { w with engine := some e }

abbrev Run := Relation.ReflTransGen Step

structure Inv (w : World) (n : Nat) : Prop where
  room : n ≤ u64Max
  file : w.engine = none → Settled bindingsPayload (w.file.getD []) n (stored w.table)
  durable : Settled bindingsPayload (w.durable.getD []) n (stored w.table)
  table : ∃ t : BindingTable, t.entries = w.table ∧ t.Installed
  running : ∀ e, w.engine = some e → e.Holds w.table n

variable {w : World} {n : Nat}

theorem inv_fresh : Inv World.fresh 1 where
  room := by decide
  file _ := settled_nil _
  durable := settled_nil _
  table := ⟨.new, rfl, new_installed⟩
  running := nofun

theorem Inv.nextSeq_eq {e : BindingsEngine} (h : Inv w n) (hrun : w.engine = some e) :
    e.nextSeq = n :=
  (h.running e hrun).keeps.nextSeq_eq

theorem Inv.bind {e : BindingsEngine} {io : BindIo} {stream pattern : Text} (h : Inv w n)
    (hrun : w.engine = some e) (hio : StopsShort (e.file.getD []) n io.write) :
    (∃ n', Inv (w.bind e io stream pattern) n')
      ∧ w.table <+: (w.bind e io stream pattern).table := by
  have holds := h.running e hrun
  unfold World.bind
  rcases holds.bindSubject io stream pattern hio with
    ⟨err, e', hbind, hkeeps⟩ | ⟨g, e', hbind, rfl | ⟨id, hnew⟩⟩
  · rw [hbind]
    refine ⟨⟨n, h.room, nofun, h.durable, h.table, ?_⟩, prefix_rfl⟩
    have hbindings := bindings_of_bindSubject_error hbind
    rintro _ ⟨⟩
    exact ⟨hbindings ▸ holds.entries, hbindings ▸ holds.installed, hkeeps⟩
  · rw [hbind]
    simp only [holds.entries, if_true]
    refine ⟨⟨n, h.room, nofun, h.durable, h.table, ?_⟩, prefix_rfl⟩
    rintro _ ⟨⟩
    exact holds
  · rw [hbind]
    dsimp only
    rw [if_neg (by simp [hnew.entries]), hnew.entries]
    refine ⟨⟨n + 1, hio.room, nofun, hnew.keeps.file,
      ⟨e'.bindings, hnew.entries, hnew.installed⟩, ?_⟩,
      prefix_append ..⟩
    rintro _ ⟨⟩
    exact hnew

/-- Every step keeps the invariant and the bindings there are. -/
theorem Step.inv {w' : World} (h : Inv w n) (hs : Step w w') :
    (∃ n', Inv w' n') ∧ w.table <+: w'.table := by
  cases hs with
  | bind io stream pattern hrun hio =>
    rw [h.nextSeq_eq hrun] at hio
    exact h.bind hrun hio
  | stop hrun =>
    exact ⟨⟨n, h.room, fun _ => (h.running _ hrun).keeps.file, h.durable, h.table, nofun⟩,
      prefix_rfl⟩
  | crash img hrun htorn hclean =>
    rw [h.nextSeq_eq hrun] at htorn hclean
    have hsettled := h.durable.torn htorn hclean
    exact ⟨⟨n, h.room, fun _ => hsettled, hsettled, h.table, nofun⟩, prefix_rfl⟩
  | @crashInBind e pattern id trie staged img hrun hstage hfits htorn hdone hroom =>
    rw [h.nextSeq_eq hrun] at htorn hdone hroom
    have holds := h.running e hrun
    rcases e.bindings.stage_cases pattern id with ⟨err, hs⟩ | ⟨-, hs⟩ | ⟨trie', hbuild, hs⟩
    · cases hs.symm.trans hstage
    · cases hs.symm.trans hstage
    · cases hs.symm.trans hstage
      -- the crash came after the slot was complete, so the binding is there
      have hsettled : Settled bindingsPayload (img.getD []) (n + 1)
          (stored (e.bindings.entries ++ [(pattern, id)])) := by
        rw [stored, if_neg (by simp)]
        exact h.durable.completed htorn hdone
      refine ⟨⟨n + 1, hroom, fun _ => hsettled, hsettled,
        ⟨_, rfl, commit_installed hbuild hfits⟩, nofun⟩, ?_⟩
      rw [← holds.entries]
      exact prefix_append ..
  | powerLoss hdown =>
    refine ⟨⟨n, h.room, fun _ => h.durable, h.durable, h.table, ?_⟩, prefix_rfl⟩
    intro e hrun
    cases hdown.symm.trans hrun
  | @reopen e hdown hopen =>
    obtain ⟨t, ht, hinstalled⟩ := h.table
    obtain ⟨e', hopen', hholds⟩ := open_of_settled (ht ▸ h.file hdown) h.room hinstalled
    cases hopen.symm.trans hopen'
    refine ⟨⟨n, h.room, nofun, h.durable, h.table, ?_⟩, prefix_rfl⟩
    rintro _ ⟨⟩
    exact ht ▸ hholds

theorem Run.inv {w' : World} (h : Inv w n) (hr : Run w w') :
    (∃ n', Inv w' n') ∧ w.table <+: w'.table := by
  induction hr with
  | refl => exact ⟨⟨n, h⟩, prefix_rfl⟩
  | tail _ hs ih =>
    obtain ⟨⟨n', h'⟩, hfront⟩ := ih
    obtain ⟨hinv, hfront'⟩ := hs.inv h'
    exact ⟨hinv, hfront.trans hfront'⟩

end Runs

end BindingsEngine

/-! ## A binding that is kept, and one that comes back -/

namespace BindingsEngine

section Sample

local instance : Checksums := ⟨castagnoli, fun _ => 0⟩

end Sample

end BindingsEngine

end IronBus
