import IronBus.ForStd.Bytes

/-!
# Reading a byte string from its front

A reader takes what it needs from the front of a string and leaves the rest, or fails. It reads
an encoding when it accepts exactly the strings that start with the encoding of a value in the
encoding's domain, and gives that value: one equivalence for both the round trip and canonicity.
-/

/-- Reads a value from the front of a string. -/
abbrev Reader (ε α : Type) := StateT Bytes (Except ε) α

namespace Reader

variable {ε α β : Type}

def fail (e : ε) : Reader ε α := fun _ => .error e

/-- A value that may be missing. -/
def ofOption (e : ε) : Option α → Reader ε α
  | none => fail e
  | some a => pure a

/-- How many bytes are left. -/
def remaining : Reader ε Nat := fun b => .ok (b.length, b)

/-- The next `n` bytes. -/
def take (e : ε) (n : Nat) : Reader ε Bytes := fun b =>
  if b.length < n then .error e else .ok (b.take n, b.drop n)

/-- The next little-endian number of `w` bytes. -/
def natLE (e : ε) (w : Nat) : Reader ε Nat := do return Bytes.toNatLE (← take e w)

/-- `n` values, one after the other. -/
def many (r : Reader ε α) : Nat → Reader ε (List α)
  | 0 => pure []
  | n + 1 => do
    let a ← r
    return a :: (← many r n)

/-- The value a whole string holds. -/
def whole (trailing : ε) (r : Reader ε α) (b : Bytes) : Except ε α :=
  match r b with
  | .error e => .error e
  | .ok (a, rest) => if rest.length ≠ 0 then .error trailing else .ok a

/-- The reader accepts the encodings of the values in the domain. -/
def Reads (r : Reader ε α) (enc : α → Bytes) (dom : α → Prop) : Prop :=
  ∀ b a rest, r b = .ok (a, rest) ↔ dom a ∧ b = enc a ++ rest

@[simp] theorem fail_ok {e : ε} {b : Bytes} {x : α × Bytes} :
    (fail e : Reader ε α) b = .ok x ↔ False := by simp [fail]

@[simp] theorem pure_ok {a a' : α} {b rest : Bytes} :
    (pure a : Reader ε α) b = .ok (a', rest) ↔ a' = a ∧ rest = b := by
  show Except.ok (a, b) = .ok (a', rest) ↔ _
  simp [eq_comm]

@[simp] theorem ofOption_ok {e : ε} {o : Option α} {a : α} {b rest : Bytes} :
    ofOption e o b = .ok (a, rest) ↔ o = some a ∧ rest = b := by
  cases o with
  | none => simp [ofOption]
  | some a' =>
    rw [ofOption, pure_ok, Option.some.injEq, eq_comm]

theorem bind_ok {r : Reader ε α} {f : α → Reader ε β} {b : Bytes} {x : β × Bytes} :
    (r >>= f) b = .ok x ↔ ∃ a b', r b = .ok (a, b') ∧ f a b' = .ok x := by
  show (r b >>= fun p => f p.1 p.2) = .ok x ↔ _
  cases h : r b with
  | error e => simp [bind, Except.bind]
  | ok p => simp [bind, Except.bind, Prod.ext_iff]

theorem remaining_bind {f : Nat → Reader ε β} {b : Bytes} :
    (remaining >>= f) b = f b.length b := rfl

theorem take_reads (e : ε) (n : Nat) : (take e n).Reads id fun a => a.length = n := by
  intro b a rest
  unfold take
  split
  · next h =>
    refine ⟨nofun, fun ⟨ha, hb⟩ => ?_⟩
    rw [hb, List.length_append, id] at h
    omega
  · next h =>
    simp only [Except.ok.injEq, Prod.mk.injEq, id]
    constructor
    · rintro ⟨rfl, rfl⟩
      exact ⟨List.length_take_of_le (Nat.not_lt.mp h), (List.take_append_drop n b).symm⟩
    · rintro ⟨rfl, rfl⟩
      exact ⟨List.take_left, List.drop_left⟩

theorem natLE_reads (e : ε) (w : Nat) : (natLE e w).Reads (Bytes.ofNatLE w) (· < 256 ^ w) := by
  intro b v rest
  rw [natLE, bind_ok]
  constructor
  · rintro ⟨bs, b', hbs, hv⟩
    obtain ⟨rfl, rfl⟩ := (take_reads e w b bs b').mp hbs
    obtain ⟨rfl, rfl⟩ := pure_ok.mp hv
    rw [Bytes.ofNatLE_toNatLE]
    exact ⟨Bytes.toNatLE_lt bs, rfl⟩
  · rintro ⟨hv, rfl⟩
    exact ⟨_, rest, (take_reads e w _ _ _).mpr ⟨Bytes.length_ofNatLE w v, rfl⟩,
      pure_ok.mpr ⟨(Bytes.toNatLE_ofNatLE hv).symm, rfl⟩⟩

variable {r : Reader ε α} {enc : α → Bytes} {dom : α → Prop}

theorem Reads.bind_ok (h : r.Reads enc dom) {f : α → Reader ε β} {b : Bytes} {x : β × Bytes} :
    (r >>= f) b = .ok x ↔ ∃ a b', (dom a ∧ b = enc a ++ b') ∧ f a b' = .ok x := by
  rw [Reader.bind_ok]
  simp only [h _ _ _]

theorem Reads.many (h : r.Reads enc dom) (n : Nat) :
    (many r n).Reads (List.flatMap enc) fun l => l.length = n ∧ ∀ a ∈ l, dom a := by
  induction n with
  | zero =>
    intro b l rest
    rw [Reader.many, pure_ok]
    constructor
    · rintro ⟨rfl, rfl⟩
      exact ⟨⟨rfl, nofun⟩, rfl⟩
    · rintro ⟨⟨hl, -⟩, rfl⟩
      obtain rfl := List.length_eq_zero_iff.mp hl
      exact ⟨rfl, rfl⟩
  | succ n ih =>
    intro b l rest
    rw [Reader.many, h.bind_ok]
    constructor
    · rintro ⟨a, b', ⟨ha, rfl⟩, hl⟩
      obtain ⟨l', b'', ⟨⟨rfl, hdom⟩, rfl⟩, hpure⟩ := ih.bind_ok.mp hl
      obtain ⟨rfl, rfl⟩ := pure_ok.mp hpure
      exact ⟨⟨rfl, List.forall_mem_cons.mpr ⟨ha, hdom⟩⟩, by simp⟩
    · rintro ⟨⟨hl, hdom⟩, rfl⟩
      obtain ⟨a, l, rfl⟩ := List.exists_cons_of_length_eq_add_one hl
      obtain ⟨ha, hdom⟩ := List.forall_mem_cons.mp hdom
      exact ⟨a, _, ⟨ha, by simp⟩, ih.bind_ok.mpr ⟨l, rest, ⟨⟨by simpa using hl, hdom⟩, rfl⟩,
        pure_ok.mpr ⟨rfl, rfl⟩⟩⟩

theorem Reads.whole_ok (h : r.Reads enc dom) {e : ε} {b : Bytes} {a : α} :
    r.whole e b = .ok a ↔ dom a ∧ b = enc a := by
  have hread := h b a []
  rw [List.append_nil] at hread
  rw [← hread, whole]
  cases hr : r b with
  | error e => simp
  | ok p =>
    obtain ⟨a', rest⟩ := p
    cases rest <;> simp

end Reader
