import Mathlib

/-!
# Byte strings

Little-endian integers and positioned reads and writes over byte lists: the part of a
file-format development that does not depend on the format. A file is a `Bytes`; `readAt`
is a positioned read and `writeAt` a positioned write that zero-fills a gap.
-/

/-- The contents of a file or a buffer. -/
abbrev Bytes := List UInt8

namespace Bytes

open List

/-! ## Little-endian integers -/

/-- The `w` low bytes of `n`, least significant first. -/
def ofNatLE : Nat → Nat → Bytes
  | 0, _ => []
  | w + 1, n => UInt8.ofNat n :: ofNatLE w (n / 256)

/-- The number a little-endian byte string denotes. -/
def toNatLE : Bytes → Nat
  | [] => 0
  | b :: bs => b.toNat + 256 * toNatLE bs

variable {w n off i : Nat} {b buf a b' : Bytes}

@[simp] theorem length_ofNatLE (w n : Nat) : (ofNatLE w n).length = w := by
  induction w generalizing n with
  | zero => rfl
  | succ w ih => simp [ofNatLE, ih]

theorem toNatLE_lt (bs : Bytes) : toNatLE bs < 256 ^ bs.length := by
  induction bs with
  | nil => simp [toNatLE]
  | cons b bs ih =>
    have hb : b.toNat < 256 := b.toNat_lt
    simp only [toNatLE, length_cons, Nat.pow_succ]
    omega

/-- Reading back `w` little-endian bytes yields the number modulo `256 ^ w`. -/
theorem toNatLE_ofNatLE_mod (w n : Nat) : toNatLE (ofNatLE w n) = n % 256 ^ w := by
  induction w generalizing n with
  | zero => simp [ofNatLE, toNatLE, Nat.mod_one]
  | succ w ih =>
    simp only [ofNatLE, toNatLE, ih, UInt8.toNat_ofNat']
    rw [Nat.pow_succ' (m := 256), Nat.mod_mul]

/-- A number that fits in `w` bytes survives the round trip. -/
theorem toNatLE_ofNatLE (h : n < 256 ^ w) : toNatLE (ofNatLE w n) = n := by
  rw [toNatLE_ofNatLE_mod, Nat.mod_eq_of_lt h]

/-- A byte string is determined by its length and the number it denotes. -/
theorem ofNatLE_toNatLE (bs : Bytes) : ofNatLE bs.length (toNatLE bs) = bs := by
  induction bs with
  | nil => rfl
  | cons b bs ih =>
    have hb : b.toNat < 256 := b.toNat_lt
    simp only [length_cons, ofNatLE, toNatLE]
    have hdiv : (b.toNat + 256 * toNatLE bs) / 256 = toNatLE bs := by omega
    have hmod : UInt8.ofNat (b.toNat + 256 * toNatLE bs) = b := by
      apply UInt8.toNat_inj.mp
      rw [UInt8.toNat_ofNat']
      omega
    rw [hdiv, hmod, ih]

/-! ## Positioned access -/

/-- The `n` bytes from `off` (fewer if the file ends first), like `pread`. -/
def readAt (b : Bytes) (off n : Nat) : Bytes := (b.drop off).take n

/-- The little-endian number stored in the `w` bytes from `off`. -/
def natAt (b : Bytes) (off w : Nat) : Nat := toNatLE (readAt b off w)

/-- Zero-fills up to `n` bytes; a longer string is unchanged. -/
def padTo (b : Bytes) (n : Nat) : Bytes := b ++ List.replicate (n - b.length) 0

/-- Overwrites the bytes from `off`, zero-filling a gap and growing the file as needed. -/
def writeAt (b : Bytes) (off : Nat) (buf : Bytes) : Bytes :=
  (padTo b off).take off ++ buf ++ b.drop (off + buf.length)

@[simp] theorem length_padTo (b : Bytes) (n : Nat) : (padTo b n).length = max b.length n := by
  simp only [padTo, length_append, length_replicate]
  omega

@[simp] theorem length_writeAt (b : Bytes) (off : Nat) (buf : Bytes) :
    (writeAt b off buf).length = max b.length (off + buf.length) := by
  simp only [writeAt, length_append, length_take, length_padTo, length_drop]
  omega

theorem length_readAt (b : Bytes) (off n : Nat) :
    (readAt b off n).length = min n (b.length - off) := by
  simp [readAt]

/-- A number of `w` bytes is bounded by them. -/
theorem natAt_lt (b : Bytes) (off w : Nat) : natAt b off w < 256 ^ w := by
  refine Nat.lt_of_lt_of_le (toNatLE_lt _) ?_
  rw [length_readAt]
  exact Nat.pow_le_pow_right (by decide) (Nat.min_le_left _ _)

theorem length_readAt_of_le (h : off + n ≤ b.length) :
    (readAt b off n).length = n := by
  rw [length_readAt]
  omega

/-- Below the written range the bytes are those of the old file. -/
theorem getElem?_writeAt_lt (hi : i < off) (hb : i < b.length) :
    (writeAt b off buf)[i]? = b[i]? := by
  have hlen : i < ((padTo b off).take off).length := by
    simp only [length_take, length_padTo]
    omega
  rw [writeAt, append_assoc, getElem?_append_left hlen, getElem?_take_of_lt hi,
    padTo, getElem?_append_left hb]

/-- In a gap between the old end and the written range the bytes are zero. -/
theorem getElem?_writeAt_gap (hi : i < off) (hb : b.length ≤ i) :
    (writeAt b off buf)[i]? = some 0 := by
  have hlen : i < ((padTo b off).take off).length := by
    simp only [length_take, length_padTo]
    omega
  rw [writeAt, append_assoc, getElem?_append_left hlen, getElem?_take_of_lt hi,
    padTo, getElem?_append_right hb, getElem?_replicate, if_pos (by omega)]

private theorem length_take_padTo (b : Bytes) (off : Nat) :
    ((padTo b off).take off).length = off := by
  simp only [length_take, length_padTo]
  omega

/-- Inside the written range the bytes are those of the buffer. -/
theorem getElem?_writeAt_mid (hlo : off ≤ i) (hhi : i < off + buf.length) :
    (writeAt b off buf)[i]? = buf[i - off]? := by
  rw [writeAt, append_assoc,
    getElem?_append_right (by rw [length_take_padTo]; exact hlo), length_take_padTo,
    getElem?_append_left (by omega)]

/-- Past the written range the bytes are those of the old file. -/
theorem getElem?_writeAt_ge (hi : off + buf.length ≤ i) :
    (writeAt b off buf)[i]? = b[i]? := by
  rw [writeAt, append_assoc,
    getElem?_append_right (by rw [length_take_padTo]; omega), length_take_padTo,
    getElem?_append_right (by omega), getElem?_drop]
  congr 1
  omega

theorem getElem?_readAt (hi : i < n) :
    (readAt b off n)[i]? = b[off + i]? := by
  rw [readAt, getElem?_take_of_lt hi, getElem?_drop]

/-- Reading the whole of the first part of a concatenation. -/
theorem readAt_append_left (h : n = a.length) :
    readAt (a ++ b) 0 n = a := by
  subst h
  simp [readAt]

/-- Reading the whole of the middle part of a concatenation. -/
theorem readAt_append_mid {c : Bytes} (ho : off = a.length) (hn : n = b.length) :
    readAt (a ++ b ++ c) off n = b := by
  subst ho hn
  simp [readAt, append_assoc]

/-- A read past the first part of a concatenation reads the second. -/
theorem readAt_append_right (h : a.length ≤ off) :
    readAt (a ++ b) off n = readAt b (off - a.length) n := by
  simp only [readAt, drop_append, drop_eq_nil_of_le h, nil_append]

/-- A read within a prefix reads the whole string. -/
theorem readAt_take {m : Nat} (h : off + n ≤ m) :
    readAt (b.take m) off n = readAt b off n := by
  simp only [readAt, drop_take, take_take]
  congr 1
  omega

theorem natAt_append_right (h : a.length ≤ off) :
    natAt (a ++ b) off w = natAt b (off - a.length) w := by
  rw [natAt, readAt_append_right h, natAt]

/-- A number stored right after the first part of a concatenation. -/
theorem natAt_append_at (h : off = a.length) :
    natAt (a ++ b) off w = natAt b 0 w := by
  rw [natAt_append_right (Nat.le_of_eq h.symm), h, Nat.sub_self]

/-- Reads inside a shared front part agree. -/
theorem readAt_congr_take (htake : b'.take n = b.take n) (h : off + w ≤ n) :
    b'.readAt off w = b.readAt off w := by
  rw [← readAt_take h, htake, readAt_take h]

theorem natAt_congr_take (htake : b'.take n = b.take n) (h : off + w ≤ n) :
    b'.natAt off w = b.natAt off w := by
  rw [natAt, readAt_congr_take htake h, natAt]

/-- Reading back a number at the front. -/
theorem natAt_ofNatLE (h : n < 256 ^ w) :
    natAt (ofNatLE w n ++ b) 0 w = n := by
  rw [natAt, readAt_append_left (length_ofNatLE w n).symm, toNatLE_ofNatLE h]

/-- Reading part `i` of a string that is laid out in parts. -/
theorem readAt_flatten {parts : List Bytes} (i off n : Nat) (hi : parts[i]? = some b)
    (ho : off = (parts.take i).flatten.length) (hn : n = b.length) :
    readAt parts.flatten off n = b := by
  obtain ⟨hlt, rfl⟩ := List.getElem?_eq_some_iff.mp hi
  have hsplit : parts.flatten
      = (parts.take i).flatten ++ parts[i] ++ (parts.drop (i + 1)).flatten := by
    rw [List.append_assoc, ← List.flatten_cons, ← List.drop_eq_getElem_cons hlt,
      ← flatten_append, take_append_drop]
  rw [hsplit, readAt_append_mid ho hn]

/-- Reading the number that is part `i` of a string laid out in parts. -/
theorem natAt_flatten {parts : List Bytes} (i off w : Nat) (hi : parts[i]? = some (ofNatLE w n))
    (ho : off = (parts.take i).flatten.length) (hn : n < 256 ^ w) :
    natAt parts.flatten off w = n := by
  rw [natAt, readAt_flatten i off w hi ho (length_ofNatLE w n).symm, toNatLE_ofNatLE hn]

/-- A positioned read depends only on the bytes it covers. -/
theorem readAt_congr (h : ∀ i, off ≤ i → i < off + n → b[i]? = b'[i]?) :
    readAt b off n = readAt b' off n := by
  apply ext_getElem?
  intro i
  by_cases hi : i < n
  · rw [getElem?_readAt hi, getElem?_readAt hi, h (off + i) (by omega) (by omega)]
  · simp [readAt, hi]

/-- A read inside a read. -/
theorem readAt_readAt {k : Nat} (h : i + k ≤ n) :
    readAt (readAt b off n) i k = readAt b (off + i) k := by
  simp only [readAt, drop_take, drop_drop, take_take]
  congr 1
  omega

/-- Two reads that meet are one. -/
theorem readAt_append_readAt (b : Bytes) {mid m : Nat} (h : mid = off + m) :
    readAt b off m ++ readAt b mid n = readAt b off (m + n) := by
  rw [readAt, readAt, readAt, take_add, drop_drop, h]

/-- Writing back the number read at a position gives the bytes there. -/
theorem ofNatLE_natAt (h : off + w ≤ b.length) :
    ofNatLE w (natAt b off w) = readAt b off w := by
  have hread := ofNatLE_toNatLE (readAt b off w)
  rwa [length_readAt_of_le h] at hread

theorem toNatLE_eq_zero {bs : Bytes} (h : ∀ b ∈ bs, b = 0) : toNatLE bs = 0 := by
  induction bs with
  | nil => rfl
  | cons b bs ih =>
    have hb : b = 0 := h b mem_cons_self
    have hbs := ih fun c hc => h c (mem_cons_of_mem b hc)
    simp [toNatLE, hb, hbs]

/-- Reading back what was just written. -/
theorem readAt_writeAt (b : Bytes) (off : Nat) (buf : Bytes) :
    readAt (writeAt b off buf) off buf.length = buf := by
  apply ext_getElem?
  intro i
  by_cases hi : i < buf.length
  · rw [getElem?_readAt hi, getElem?_writeAt_mid (by omega) (by omega)]
    congr 1
    omega
  · simp [readAt, hi]

/-! ## UTF-8 -/

/-- A continuation byte. -/
def isCont (b : UInt8) : Bool := 0x80 ≤ b && b ≤ 0xBF

/-- Whether a byte string is UTF-8: shortest forms, no surrogates, nothing past U+10FFFF. -/
def validUtf8 : Bytes → Bool
  | [] => true
  | [a] => a < 0x80
  | [a, b] =>
    if a < 0x80 then validUtf8 [b] else 0xC2 ≤ a && a ≤ 0xDF && isCont b
  | [a, b, c] =>
    if a < 0x80 then validUtf8 [b, c]
    else if a ≤ 0xDF then 0xC2 ≤ a && isCont b && validUtf8 [c]
    else isCont b && isCont c && (if a = 0xE0 then 0xA0 ≤ b else if a = 0xED then b ≤ 0x9F
      else a ≤ 0xEF)
  | a :: b :: c :: d :: rest =>
    if a < 0x80 then validUtf8 (b :: c :: d :: rest)
    else if a ≤ 0xDF then 0xC2 ≤ a && isCont b && validUtf8 (c :: d :: rest)
    else if a ≤ 0xEF then
      isCont b && isCont c && (if a = 0xE0 then 0xA0 ≤ b else if a = 0xED then b ≤ 0x9F else true)
        && validUtf8 (d :: rest)
    else isCont b && isCont c && isCont d
      && (if a = 0xF0 then 0x90 ≤ b else if a = 0xF4 then b ≤ 0x8F else a ≤ 0xF3)
      && validUtf8 rest

end Bytes
