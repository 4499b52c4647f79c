import IronBus.Native.GeoMirror

/-!
# Cursor payloads read back

A cursor checkpoint and a marker record hold the positions of all origins in one payload. What is
written for a map that fits the payload's fields is read back as the same positions.
-/

namespace IronBus

open List

/-- Inserts entries one after the other. -/
def CursorMap.insertAll (m : CursorMap) (es : List (OriginKey × Nat)) : CursorMap :=
  es.foldl (fun m e => m.insert e.1 e.2) m

/-- An entry whose key and offset the payload's fields can hold. -/
structure CursorEntryFits (e : OriginKey × Nat) : Prop where
  short : e.1.length < 2 ^ 16
  utf8 : e.1.validUtf8 = true
  offset : e.2 < 2 ^ 64

theorem read_cursorEntry {e : OriginKey × Nat} (hf : CursorEntryFits e) (rest : Bytes) :
    let body := encodeCursorEntry e ++ rest
    let n := e.1.length
    body.length = 2 + n + 8 + rest.length ∧ body.natAt 0 2 = n ∧ body.readAt 2 n = e.1
      ∧ body.natAt (2 + n) 8 = e.2 ∧ body.drop (2 + n + 8) = rest := by
  have hshort := hf.short
  have hoff := hf.offset
  have hmin : min e.1.length 0xFFFF = e.1.length := by omega
  have hlen : (Bytes.ofNatLE 2 e.1.length ++ e.1).length = 2 + e.1.length := by simp
  simp only [encodeCursorEntry, hmin, take_length, append_assoc]
  refine ⟨by simp; omega, Bytes.natAt_ofNatLE (by omega), ?_, ?_, ?_⟩
  · rw [← append_assoc]
    exact Bytes.readAt_append_mid (by simp) rfl
  · rw [← append_assoc, Bytes.natAt_append_at hlen.symm]
    exact Bytes.natAt_ofNatLE (by omega)
  · simp only [← append_assoc]
    exact drop_left' (by simp; omega)

theorem decodeCursorEntries_encode {es : List (OriginKey × Nat)}
    (hf : ∀ e ∈ es, CursorEntryFits e) (m : CursorMap) :
    decodeCursorEntries es.length (es.flatMap encodeCursorEntry) m
      = some (m.insertAll es, []) := by
  induction es generalizing m with
  | nil => rfl
  | cons e es ih =>
    obtain ⟨hlen, hkl, hkey, hoff, hdrop⟩ :=
      read_cursorEntry (hf e mem_cons_self) (es.flatMap encodeCursorEntry)
    have hutf8 := (hf e mem_cons_self).utf8
    rw [flatMap_cons, length_cons, decodeCursorEntries]
    simp only [hlen, hkl, hkey, hoff, hdrop, hutf8]
    rw [if_neg (by omega), if_neg (by omega), if_neg (by simp)]
    exact ih (fun e' he' => hf e' (mem_cons_of_mem _ he')) _

namespace CursorMap

variable {m : CursorMap}

theorem mem_pairs {k : OriginKey} {v : Nat} : (k, v) ∈ m.pairs ↔ m.lookup k = some v := by
  rw [pairs, mem_insertionSort, ← Assoc.mem_entries_iff]
  constructor
  · intro h
    obtain ⟨⟨k', v'⟩, hmem, heq⟩ := mem_map.mp h
    cases heq
    exact hmem
  · exact fun h => mem_map.mpr ⟨⟨k, v⟩, h, rfl⟩

theorem pairs_length : m.pairs.length = m.size := by
  rw [pairs, length_insertionSort, length_map, Assoc.size]

/-- No key is written twice. -/
theorem pairs_nodup : m.pairs.Pairwise fun a b => a.1 ≠ b.1 := by
  refine (perm_insertionSort _ _).pairwise_iff (fun h => Ne.symm h) |>.mpr ?_
  rw [pairwise_map]
  exact nodupKeys_iff_pairwise.mp m.nodupKeys

/-- What inserting entries with different keys leaves under a key. -/
theorem lookup_insertAll {es : List (OriginKey × Nat)} (hes : es.Pairwise fun a b => a.1 ≠ b.1)
    (m : CursorMap) (k : OriginKey) :
    (∀ v, (k, v) ∈ es → (m.insertAll es).lookup k = some v)
      ∧ ((∀ v, (k, v) ∉ es) → (m.insertAll es).lookup k = m.lookup k) := by
  induction es generalizing m with
  | nil => exact ⟨nofun, fun _ => rfl⟩
  | cons e es ih =>
    obtain ⟨hne, hes⟩ := pairwise_cons.mp hes
    obtain ⟨hin, hout⟩ := ih hes (m.insert e.1 e.2)
    refine ⟨fun v hv => ?_, fun hno => ?_⟩
    · rcases mem_cons.mp hv with rfl | hv
      · refine (hout fun v' hv' => hne _ hv' rfl).trans ?_
        exact AList.lookup_insert _
      · exact hin v hv
    · refine (hout fun v hv => hno v (mem_cons_of_mem _ hv)).trans ?_
      refine AList.lookup_insert_ne fun heq => hno e.2 ?_
      rw [heq]
      exact mem_cons_self

/-- A payload reads back as the map it was written for. -/
theorem decode_encode (hsize : m.size < 2 ^ 32)
    (hf : ∀ k v, m.lookup k = some v → CursorEntryFits (k, v)) :
    ∃ m', decodeCursorPayload (encodeCursorPayload m) = some m'
      ∧ ∀ k, m'.lookup k = m.lookup k := by
  have hmin : min m.size 0xFFFFFFFF = m.pairs.length := by
    rw [pairs_length]
    omega
  have hcount : (encodeCursorPayload m).natAt 0 4 = m.pairs.length := by
    rw [encodeCursorPayload, hmin]
    exact Bytes.natAt_ofNatLE (by rw [pairs_length]; omega)
  have hdrop : (encodeCursorPayload m).drop 4 = m.pairs.flatMap encodeCursorEntry := by
    rw [encodeCursorPayload]
    exact drop_left' (by simp)
  have hlen : ¬ (encodeCursorPayload m).length < 4 := by
    rw [encodeCursorPayload, length_append, Bytes.length_ofNatLE]
    omega
  have hfits : ∀ e ∈ m.pairs, CursorEntryFits e := fun e he => hf e.1 e.2 (mem_pairs.mp he)
  refine ⟨insertAll ∅ m.pairs, ?_, fun k => ?_⟩
  · rw [decodeCursorPayload, if_neg hlen, hcount, hdrop, decodeCursorEntries_encode hfits]
  · obtain ⟨hin, hout⟩ := lookup_insertAll m.pairs_nodup ∅ k
    cases hlook : m.lookup k with
    | some v => exact hin v (mem_pairs.mpr hlook)
    | none =>
      refine (hout fun v hv => ?_).trans (AList.lookup_empty k)
      rw [mem_pairs, hlook] at hv
      exact nomatch hv

theorem at_insert_self (m : CursorMap) (k : OriginKey) (v : Nat) :
    CursorMap.at (m.insert k v) k = v := by
  rw [CursorMap.at, AList.lookup_insert, Option.getD_some]

theorem at_insert_ne {k k' : OriginKey} (m : CursorMap) (v : Nat) (h : k' ≠ k) :
    CursorMap.at (m.insert k v) k' = m.at k' := by
  rw [CursorMap.at, AList.lookup_insert_ne h, CursorMap.at]

end CursorMap

end IronBus
