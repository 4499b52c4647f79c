import IronBus.Native.Subject

/-!
# Covered filters

`filterCoveredByBinding` decides whether every subject a filter matches is also matched by a
binding.

Key results:
- `coveredTokens_iff`: the walk over the tokens decides inclusion
- `filterCoveredByBinding_iff`: so does the function, but for one case: a filter with the greatest
  number of tokens that ends in `>` matches no longer tail, since no subject is deeper, so a
  binding that ends in `*` covers it
-/

namespace IronBus

open List

namespace Subject

/-! ## The grammar -/

/-- A token without wildcards. -/
def Literal (t : Bytes) : Prop :=
  t ≠ [] ∧ ∀ ch ∈ t, isControl ch = false ∧ ch ≠ sep ∧ ch ≠ wildcardOne ∧ ch ≠ wildcardTail

/-- Tokens the grammar accepts: wildcards where they are allowed, a tail wildcard only last. -/
def Shape (wild : Bool) : List Bytes → Prop
  | [] => True
  | t :: rest => (wild = true ∧ t = [wildcardTail] ∧ rest = [])
    ∨ ((wild = true ∧ t = [wildcardOne] ∨ Literal t) ∧ Shape wild rest)

theorem classifyChars_iff {i : Nat} {t : Bytes} {kind : TokenKind} :
    classifyChars i t = .ok kind ↔ kind = .literal
      ∧ ∀ ch ∈ t, isControl ch = false ∧ ch ≠ sep ∧ ch ≠ wildcardOne ∧ ch ≠ wildcardTail := by
  induction t with
  | nil => simpa [classifyChars] using eq_comm
  | cons ch rest ih =>
    rw [classifyChars, forall_mem_cons]
    split_ifs with h1 h2 h3
    · simp [h1]
    · simp [h2]
    · rcases h3 with rfl | rfl <;> simp
    · rw [not_or] at h3
      simp [ih, h1, h2, h3]

theorem Literal.ne_one {t : Bytes} (h : Literal t) : t ≠ [wildcardOne] := by
  rintro rfl
  exact (h.2 _ (mem_singleton_self _)).2.2.1 rfl

theorem Literal.ne_tail {t : Bytes} (h : Literal t) : t ≠ [wildcardTail] := by
  rintro rfl
  exact (h.2 _ (mem_singleton_self _)).2.2.2 rfl

theorem single_ne_tail {t : Bytes} (h : t = [wildcardOne] ∨ Literal t) : t ≠ [wildcardTail] := by
  rcases h with rfl | h
  · decide
  · exact h.ne_tail

theorem classifyToken_iff {t : Bytes} {i : Nat} {wild : Bool} {kind : TokenKind} :
    classifyToken t i wild = .ok kind ↔
      wild = true ∧ t = [wildcardOne] ∧ kind = .singleWildcard
      ∨ wild = true ∧ t = [wildcardTail] ∧ kind = .tailWildcard
      ∨ Literal t ∧ kind = .literal := by
  have hlit : t ≠ [] → (classifyChars i t = .ok kind ↔ Literal t ∧ kind = .literal) := by
    intro hne
    rw [classifyChars_iff, Literal, and_comm]
    simp [hne]
  unfold classifyToken wildcardOrReject
  by_cases h0 : t = []
  · simp [h0, Literal]
  by_cases h1 : t = [wildcardOne]
  · have := fun h : Literal t => h.ne_one h1
    cases wild <;> simp_all [wildcardOne, wildcardTail, eq_comm]
  by_cases h2 : t = [wildcardTail]
  · have := fun h : Literal t => h.ne_tail h2
    cases wild <;> simp_all [wildcardOne, wildcardTail, eq_comm]
  · simp [h0, h1, h2, hlit h0]

/-- A text is accepted exactly when its tokens have the shape and are not too many. -/
theorem validateTokens_iff {wild : Bool} {ts : List Bytes} {count n : Nat}
    (hcount : count ≤ maxSubjectDepth) :
    validateTokens wild count none ts = .ok n ↔
      Shape wild ts ∧ n = count + ts.length ∧ n ≤ maxSubjectDepth := by
  induction ts generalizing count with
  | nil => simp [validateTokens, Shape]; omega
  | cons t rest ih =>
    rw [validateTokens]
    by_cases hmax : count = maxSubjectDepth
    · simp [hmax]; omega
    rw [if_neg hmax]
    -- nothing follows a tail
    have htail : ∀ {i : Nat}, validateTokens wild (count + 1) (some i) rest = .ok n ↔
        rest = [] ∧ n = count + 1 := by
      intro i
      cases rest <;> simp [validateTokens, eq_comm]
    have hrest := @ih (count + 1) (by omega)
    have hn : n = count + (rest.length + 1) ↔ n = count + 1 + rest.length := by omega
    rw [Shape, length_cons, hn]
    cases hk : classifyToken t count wild with
    | error e =>
      have hnot : ∀ kind, ¬ classifyToken t count wild = .ok kind := by simp [hk]
      simp only [classifyToken_iff, not_or] at hnot
      simp only [reduceCtorEq, false_iff]
      rintro ⟨⟨hw, rfl, -⟩ | ⟨⟨hw, rfl⟩ | hlit, -⟩, -⟩
      · exact (hnot _).2.1 ⟨hw, rfl, rfl⟩
      · exact (hnot _).1 ⟨hw, rfl, rfl⟩
      · exact (hnot _).2.2 ⟨hlit, rfl⟩
    | ok kind =>
      rcases classifyToken_iff.mp hk with ⟨rfl, rfl, rfl⟩ | ⟨rfl, rfl, rfl⟩ | ⟨hlit, rfl⟩
      · simp [hrest, wildcardOne, wildcardTail]
      · simp only [if_true, htail]
        constructor
        · rintro ⟨rfl, rfl⟩
          exact ⟨.inl ⟨trivial, trivial, rfl⟩, rfl, by omega⟩
        · rintro ⟨⟨-, -, rfl⟩ | ⟨⟨-, h⟩ | h, -⟩, hn, -⟩
          · exact ⟨rfl, hn⟩
          · exact absurd h (by decide)
          · exact absurd rfl h.ne_tail
      · simp [hrest, hlit, hlit.ne_tail]

theorem validate_iff {wild : Bool} {text : Bytes} {n : Nat} :
    validate text wild = .ok n ↔ Shape wild (tokens text) ∧ n = (tokens text).length
      ∧ n ≤ maxSubjectDepth := by
  by_cases hne : text = []
  · subst hne
    simp [validate, tokens, Shape, Literal]
  · rw [validate, if_neg hne, validateTokens_iff (Nat.zero_le _), Nat.zero_add]

theorem shape_false {ts : List Bytes} : Shape false ts ↔ ∀ t ∈ ts, Literal t := by
  induction ts with
  | nil => simp [Shape]
  | cons t ts ih => simp [Shape, ih]

/-! ## Inclusion -/

/-- What texts may hold, such as UTF-8: a text does when its parts around a separator do. -/
structure TextLike (Text : Bytes → Prop) : Prop where
  join : ∀ x y, Text (x ++ sep :: y) ↔ Text x ∧ Text y
  letters : Text [97] ∧ Text [98]

variable {Text : Bytes → Prop} {f b : List Bytes} {k : Nat}

/-- A subject of at most `k` tokens. -/
structure Subjects (Text : Bytes → Prop) (k : Nat) (s : List Bytes) : Prop where
  tokens : ∀ t ∈ s, Literal t ∧ Text t
  depth : s.length ≤ k

/-- Every subject of at most `k` tokens that `f` matches is matched by `b`. -/
def Included (Text : Bytes → Prop) (k : Nat) (f b : List Bytes) : Prop :=
  ∀ s, Subjects Text k s → matchTokens f s = true → matchTokens b s = true

/-- A filter of `k` tokens that ends in `>`, and a binding of `k` tokens that ends in `*` and
covers the tokens before. -/
def DeepTail (k : Nat) (f b : List Bytes) : Prop :=
  f.length = k ∧ b.length = k ∧ f.getLast? = some [wildcardTail]
    ∧ b.getLast? = some [wildcardOne] ∧ coveredTokens f.dropLast b.dropLast = true

theorem Subjects.nil : Subjects Text k [] := ⟨by simp, Nat.zero_le k⟩

theorem Subjects.cons {t : Bytes} {s : List Bytes} (ht : Literal t ∧ Text t)
    (h : Subjects Text k s) : Subjects Text (k + 1) (t :: s) :=
  ⟨forall_mem_cons.mpr ⟨ht, h.tokens⟩, Nat.succ_le_succ h.depth⟩

section

variable (hT : TextLike Text)

include hT

/-- A letter is a literal token, and there is one that is not a given token. -/
theorem exists_letter (c : Bytes) :
    ∃ x, (Literal x ∧ Text x) ∧ x ≠ c := by
  have hlit : ∀ x ∈ [[97], [98]], Literal x := by
    simp [Literal, isControl, sep, wildcardOne, wildcardTail]
  by_cases hc : c = [97]
  · exact ⟨[98], ⟨hlit _ (by simp), hT.letters.2⟩, by simp [hc]⟩
  · exact ⟨[97], ⟨hlit _ (by simp), hT.letters.1⟩, Ne.symm hc⟩

/-- A token of a filter that is not `>` matches a token, one that is not `c` unless it is `c`. -/
theorem exists_token {t : Bytes} (ht : t = [wildcardOne] ∨ Literal t) (htext : Text t) (c : Bytes) :
    ∃ x, (Literal x ∧ Text x) ∧ (t = [wildcardOne] ∨ t = x) ∧ (c = x → c = t) := by
  obtain ⟨x, hx, hne⟩ := exists_letter hT c
  rcases ht with rfl | hlit
  · exact ⟨x, hx, .inl rfl, fun h => absurd h.symm hne⟩
  · exact ⟨t, ⟨hlit, htext⟩, .inr rfl, id⟩

omit hT in
theorem matchTokens_cons {t x : Bytes} {s : List Bytes} (ht : t ≠ [wildcardTail]) :
    matchTokens (t :: f) (x :: s) = true ↔
      (t = [wildcardOne] ∨ t = x) ∧ matchTokens f s = true := by
  rw [matchTokens, if_neg ht]
  simp

/-- A filter matches some subject of its own length. -/
theorem exists_match (hf : Shape true f) (htext : ∀ t ∈ f, Text t) (hk : f.length ≤ k) :
    ∃ s, Subjects Text k s ∧ matchTokens f s = true := by
  induction f generalizing k with
  | nil => exact ⟨[], .nil, rfl⟩
  | cons t f ih =>
    obtain ⟨k, rfl⟩ : ∃ m, k = m + 1 := Nat.exists_eq_succ_of_ne_zero (by simp at hk; omega)
    rw [forall_mem_cons] at htext
    rcases hf with ⟨-, rfl, rfl⟩ | ⟨ht, hf⟩
    · obtain ⟨x, hx, -⟩ := exists_letter hT []
      exact ⟨[x], Subjects.nil.cons hx, rfl⟩
    · replace ht := ht.imp_left And.right
      obtain ⟨s, hs, hm⟩ := ih hf htext.2 (Nat.le_of_succ_le_succ hk)
      obtain ⟨x, hx, hxt, -⟩ := exists_token hT ht htext.1 []
      exact ⟨x :: s, hs.cons hx, (matchTokens_cons (single_ne_tail ht)).mpr ⟨hxt, hm⟩⟩

omit hT in
theorem matchTokens_ne_nil (hf : f ≠ []) {s : List Bytes} (h : matchTokens f s = true) :
    s ≠ [] := by
  rintro rfl
  cases f with
  | nil => exact hf rfl
  | cons t f =>
    rw [matchTokens] at h
    split at h <;> simp at h

/-- Past a token on both sides that is not `>`, inclusion is that of the rests, if the binding's
token covers the filter's. -/
theorem included_cons {t c : Bytes} (ht : t = [wildcardOne] ∨ Literal t) (hc : c ≠ [wildcardTail])
    (htext : ∀ x ∈ t :: f, Text x) (hf : Shape true f) (hk : f.length ≤ k) :
    Included Text (k + 1) (t :: f) (c :: b) ↔
      (c = [wildcardOne] ∨ c = t) ∧ Included Text k f b := by
  rw [forall_mem_cons] at htext
  have htail := single_ne_tail ht
  constructor
  · intro h
    obtain ⟨x, hx, hxt, hxc⟩ := exists_token hT ht htext.1 c
    have hall : ∀ s, Subjects Text k s → matchTokens f s = true →
        (c = [wildcardOne] ∨ c = x) ∧ matchTokens b s = true := fun s hs hm =>
      (matchTokens_cons hc).mp (h _ (hs.cons hx) ((matchTokens_cons htail).mpr ⟨hxt, hm⟩))
    obtain ⟨s, hs, hm⟩ := exists_match hT hf htext.2 hk
    exact ⟨(hall s hs hm).1.imp_right hxc, fun s hs hm => (hall s hs hm).2⟩
  · rintro ⟨hhead, h⟩ s hs hm
    obtain ⟨x, s, rfl⟩ := exists_cons_of_ne_nil (matchTokens_ne_nil (by simp) hm)
    rw [matchTokens_cons htail] at hm
    rw [matchTokens_cons hc]
    refine ⟨?_, h s ⟨fun t ht => hs.tokens t (.tail _ ht), Nat.le_of_succ_le_succ hs.depth⟩ hm.2⟩
    rcases hhead with rfl | rfl
    · exact .inl rfl
    · exact hm.1

/-- A filter that is `>` alone is included in a binding whose first token is not `>` only where
one token is left and the binding is `*`. -/
theorem included_tail {c : Bytes} (hc : c ≠ [wildcardTail]) (hk : 1 ≤ k) :
    Included Text k [[wildcardTail]] (c :: b) ↔ k = 1 ∧ c = [wildcardOne] ∧ b = [] := by
  constructor
  · intro h
    obtain ⟨x, hx, hne⟩ := exists_letter hT c
    have hone := h [x] ⟨by simpa using hx, hk⟩ rfl
    rw [matchTokens_cons hc, or_iff_left hne.symm] at hone
    obtain rfl : b = [] := by
      by_contra hb
      exact matchTokens_ne_nil hb hone.2 rfl
    refine ⟨le_antisymm (not_lt.mp fun htwo => ?_) hk, hone.1, rfl⟩
    have := h [x, x] ⟨by simpa using hx, htwo⟩ rfl
    exact nomatch ((matchTokens_cons hc).mp this).2
  · rintro ⟨rfl, rfl, rfl⟩ s hs hm
    obtain ⟨x, s, rfl⟩ := exists_cons_of_ne_nil (matchTokens_ne_nil (by simp) hm)
    obtain rfl := length_eq_zero_iff.mp (Nat.le_zero.mp (Nat.le_of_succ_le_succ hs.depth))
    exact (matchTokens_cons hc).mpr ⟨.inl rfl, rfl⟩

omit hT in
theorem deepTail_cons {t c : Bytes} (ht : t ≠ [wildcardTail]) (hc : c ≠ [wildcardTail]) :
    DeepTail (k + 1) (t :: f) (c :: b) ↔ (c = [wildcardOne] ∨ c = t) ∧ DeepTail k f b := by
  rcases f with _ | ⟨t', f⟩ <;> rcases b with _ | ⟨c', b⟩
  all_goals simp [DeepTail, coveredTokens, ht, hc]
  tauto

/-- The walk answers inclusion, but for the deepest filters. -/
theorem coveredTokens_iff (hf : Shape true f) (hb : Shape true b)
    (htext : ∀ t ∈ f, Text t) (hfk : f.length ≤ k) (hbk : b.length ≤ k) :
    (coveredTokens f b = true ↔ Included Text k f b) ↔ ¬ DeepTail k f b := by
  induction f generalizing b k with
  | nil =>
    refine iff_of_true ?_ fun hdeep => nomatch hdeep.2.2.1
    cases b with
    | nil => exact iff_of_true rfl fun s _ hm => hm
    | cons c b =>
      refine iff_of_false (by simp [coveredTokens]) fun h => ?_
      exact matchTokens_ne_nil (by simp) (h [] .nil rfl) rfl
  | cons t f ih =>
    obtain ⟨k, rfl⟩ : ∃ m, k = m + 1 := Nat.exists_eq_succ_of_ne_zero (by simp at hfk; omega)
    cases b with
    | nil =>
      refine iff_of_true (iff_of_false (by simp [coveredTokens]) fun h => ?_) fun hdeep =>
        nomatch hdeep.2.2.2.1
      obtain ⟨s, hs, hm⟩ := exists_match hT hf htext hfk
      exact matchTokens_ne_nil (by simp) hm (isEmpty_iff.mp (h s hs hm))
    | cons c b =>
      rcases hb with ⟨-, rfl, rfl⟩ | ⟨hc, hb⟩
      · refine iff_of_true (iff_of_true rfl fun s _ hm => ?_) fun hdeep =>
          absurd hdeep.2.2.2.1 (by decide)
        simpa [matchTokens] using matchTokens_ne_nil (by simp) hm
      have hctail := single_ne_tail (hc.imp_left And.right)
      rcases hf with ⟨-, rfl, rfl⟩ | ⟨ht, hf⟩
      · -- a tail in the filter, where the binding has none
        have hdeep : DeepTail (k + 1) [[wildcardTail]] (c :: b) ↔
            k + 1 = 1 ∧ c = [wildcardOne] ∧ b = [] := by
          cases b <;> simp [DeepTail, coveredTokens, eq_comm]
        rw [included_tail hT hctail (Nat.le_add_left 1 k), hdeep]
        simp [coveredTokens, hctail]
      · replace ht := ht.imp_left And.right
        have hrest := forall_mem_cons.mp htext
        have := ih hf hb hrest.2 (Nat.le_of_succ_le_succ hfk) (Nat.le_of_succ_le_succ hbk)
        rw [included_cons hT ht hctail htext hf (Nat.le_of_succ_le_succ hfk),
          deepTail_cons (single_ne_tail ht) hctail, coveredTokens, if_neg hctail]
        simp only [if_neg (single_ne_tail ht), Bool.and_eq_true, Bool.or_eq_true, beq_iff_eq]
        tauto

/-! ## Texts -/

/-- A text is one exactly when its tokens are. -/
theorem TextLike.intercalate {ts : List Bytes} (hne : ts ≠ []) :
    Text ([sep].intercalate ts) ↔ ∀ t ∈ ts, Text t := by
  induction ts with
  | nil => exact absurd rfl hne
  | cons t ts ih =>
    cases ts with
    | nil => simp
    | cons t' ts =>
      rw [intercalate_cons_cons, append_assoc, singleton_append, hT.join,
        ih (by simp), forall_mem_cons (a := t)]

theorem TextLike.tokens_iff {text : Bytes} :
    Text text ↔ ∀ t ∈ tokens text, Text t := by
  rw [tokens, ← hT.intercalate (splitOn_ne_nil sep text), intercalate_splitOn]

end

/-- The answer is inclusion exactly outside of the deepest case. -/
theorem filterCoveredByBinding_iff (hT : TextLike Text) {filter binding : Bytes} {m n : Nat}
    (hf : parsePattern filter = .ok m) (hb : parsePattern binding = .ok n) (htext : Text filter) :
    (filterCoveredByBinding filter binding = true ↔
      ∀ subject d, parseLiteral subject = .ok d → Text subject →
        matchesPattern filter subject = true → matchesPattern binding subject = true)
    ↔ ¬ DeepTail maxSubjectDepth (tokens filter) (tokens binding) := by
  obtain ⟨hfs, hfn, hfd⟩ := validate_iff.mp hf
  obtain ⟨hbs, hbn, hbd⟩ := validate_iff.mp hb
  rw [← coveredTokens_iff hT hfs hbs (hT.tokens_iff.mp htext) (hfn ▸ hfd) (hbn ▸ hbd)]
  refine iff_congr Iff.rfl ⟨fun h s hs hm => ?_, fun h subject d hd htext hm => ?_⟩
  · -- the tokens, joined, are a subject
    have hne := matchTokens_ne_nil (List.splitOn_ne_nil sep filter) hm
    have htokens : tokens ([sep].intercalate s) = s :=
      List.splitOn_intercalate sep (fun t ht hsep => ((hs.tokens t ht).1.2 _ hsep).2.1 rfl) hne
    have hparse : parseLiteral ([sep].intercalate s) = .ok s.length := by
      refine validate_iff.mpr ⟨?_, by rw [htokens], hs.depth⟩
      rw [htokens, shape_false]
      exact fun t ht => (hs.tokens t ht).1
    have := h _ _ hparse ((hT.intercalate hne).mpr fun t ht => (hs.tokens t ht).2)
    rw [matchesPattern, matchesPattern, htokens] at this
    exact this hm
  · obtain ⟨hs, hn, hmax⟩ := validate_iff.mp hd
    exact h _ ⟨fun t ht => ⟨shape_false.mp hs t ht, hT.tokens_iff.mp htext t ht⟩,
      hn ▸ hmax⟩ hm

end Subject

section Concrete

open Subject

/-- The text `a.` 31 times, then `last`. -/
def deepText (last : UInt8) : Bytes := (List.replicate 31 [97, sep]).flatten ++ [last]

/-- At 32 tokens `>` matches one token, as `*` does, and is not found covered by it. -/
theorem deep_tail_not_covered :
    parsePattern (deepText wildcardTail) = .ok 32 ∧ parsePattern (deepText wildcardOne) = .ok 32
    ∧ filterCoveredByBinding (deepText wildcardTail) (deepText wildcardOne) = false
    ∧ ∀ subject d, parseLiteral subject = .ok d →
        matchesPattern (deepText wildcardTail) subject = true →
        matchesPattern (deepText wildcardOne) subject = true := by
  have hf : parsePattern (deepText wildcardTail) = .ok 32 := by decide +kernel
  have hb : parsePattern (deepText wildcardOne) = .ok 32 := by decide +kernel
  have hno : filterCoveredByBinding (deepText wildcardTail) (deepText wildcardOne) = false := by
    decide +kernel
  have hdeep : DeepTail 32 (tokens (deepText wildcardTail)) (tokens (deepText wildcardOne)) := by
    unfold DeepTail
    decide +kernel
  obtain ⟨hfs, hfn, -⟩ := validate_iff.mp hf
  obtain ⟨hbs, hbn, -⟩ := validate_iff.mp hb
  refine ⟨hf, hb, hno, fun subject d hd hm => ?_⟩
  obtain ⟨hs, hn, hmax⟩ := validate_iff.mp hd
  by_contra hnot
  refine (@coveredTokens_iff (fun _ => True) _ _ 32 ⟨by simp, by simp⟩ hfs hbs (fun _ _ => trivial)
    hfn.ge hbn.ge).mp (iff_of_false (by rw [← filterCoveredByBinding, hno]; decide) fun h => ?_)
    hdeep
  exact hnot (h _ ⟨fun t ht => ⟨shape_false.mp hs t ht, trivial⟩, hn ▸ hmax⟩ hm)

/-- `a.*` is covered by `a.>`, and `a.>` is not covered by `a.*`. -/
theorem filterCovered_orders :
    (∀ subject d, parseLiteral subject = .ok d →
      matchesPattern [97, sep, wildcardOne] subject = true →
      matchesPattern [97, sep, wildcardTail] subject = true)
    ∧ ¬ ∀ subject d, parseLiteral subject = .ok d →
      matchesPattern [97, sep, wildcardTail] subject = true →
      matchesPattern [97, sep, wildcardOne] subject = true := by
  have hiff := fun f b m n => @filterCoveredByBinding_iff (fun _ => True) ⟨by simp, by simp⟩ f b m n
  have h1 := (hiff [97, sep, wildcardOne] [97, sep, wildcardTail] 2 2 (by decide) (by decide)
    trivial).mpr (by simp [DeepTail]; decide)
  have h2 := (hiff [97, sep, wildcardTail] [97, sep, wildcardOne] 2 2 (by decide) (by decide)
    trivial).mpr (by simp [DeepTail]; decide)
  simp only [true_implies] at h1 h2
  exact ⟨h1.mp (by decide), fun h => absurd (h2.mpr h) (by decide)⟩

end Concrete

end IronBus
