import IronBus.ForStd.Bytes
import IronBus.Native.Error

/-!
# Subjects and subject patterns

A subject is a dot-separated list of tokens; a pattern may use `*` for one token and a final `>`
for one or more. Both are text, kept as its UTF-8 bytes: the characters the grammar speaks of are
all ASCII, so a byte-wise check sees exactly them.
-/

namespace IronBus

inductive SubjectError where
  | empty
  | emptyToken (index : Nat)
  | illegalChar (ch : UInt8) (index : Nat)
  | controlChar (ch : UInt8) (index : Nat)
  | wildcardNotAllowed (ch : UInt8) (index : Nat)
  | tailWildcardNotLast (index : Nat)
  | tooDeep (depth : Nat)
  deriving DecidableEq

namespace Subject

def maxSubjectDepth : Nat := 32

/-- The separator `.`. -/
def sep : UInt8 := 46

/-- The single-token wildcard `*`. -/
def wildcardOne : UInt8 := 42

/-- The tail wildcard `>`. -/
def wildcardTail : UInt8 := 62

def isControl (ch : UInt8) : Bool := decide (ch < 0x20) || ch == 0x7F

inductive TokenKind where
  | literal
  | singleWildcard
  | tailWildcard
  deriving DecidableEq

/-- The characters of a token that is not a wildcard. -/
def classifyChars (index : Nat) : Bytes → Except SubjectError TokenKind
  | [] => .ok .literal
  | ch :: rest =>
    if isControl ch then .error (.controlChar ch index)
    else if ch = sep then .error (.illegalChar ch index)
    else if ch = wildcardOne ∨ ch = wildcardTail then .error (.illegalChar ch index)
    else classifyChars index rest

def wildcardOrReject (kind : TokenKind) (ch : UInt8) (index : Nat) (allowWildcards : Bool) :
    Except SubjectError TokenKind :=
  if allowWildcards then .ok kind else .error (.wildcardNotAllowed ch index)

def classifyToken (token : Bytes) (index : Nat) (allowWildcards : Bool) :
    Except SubjectError TokenKind :=
  if token = [] then .error (.emptyToken index)
  else if token = [wildcardOne] then
    wildcardOrReject .singleWildcard wildcardOne index allowWildcards
  else if token = [wildcardTail] then
    wildcardOrReject .tailWildcard wildcardTail index allowWildcards
  else classifyChars index token

/-- The tokens of a text. -/
def tokens (text : Bytes) : List Bytes := text.splitOn sep

/-- Checks the tokens from `count` on; `tailSeenAt` is where a tail wildcard stood. -/
def validateTokens (allowWildcards : Bool) (count : Nat) (tailSeenAt : Option Nat) :
    List Bytes → Except SubjectError Nat
  | [] => .ok count
  | token :: rest =>
    match tailSeenAt with
    | some index => .error (.tailWildcardNotLast index)
    | none =>
      if count = maxSubjectDepth then .error (.tooDeep (count + 1))
      else
        match classifyToken token count allowWildcards with
        | .error e => .error e
        | .ok kind => validateTokens allowWildcards (count + 1)
            (if kind = .tailWildcard then some count else none) rest

/-- Checks a text; its number of tokens. -/
def validate (text : Bytes) (allowWildcards : Bool) : Except SubjectError Nat :=
  if text = [] then .error .empty else validateTokens allowWildcards 0 none (tokens text)

/-- Whether a text is a literal subject. -/
def parseLiteral (text : Bytes) : Except SubjectError Nat := validate text false

/-- Whether a text is a subject pattern. -/
def parsePattern (text : Bytes) : Except SubjectError Nat := validate text true

/-- Whether the tokens of a pattern match those of a subject. -/
def matchTokens : List Bytes → List Bytes → Bool
  | [], sub => sub.isEmpty
  | p :: pat, sub =>
    if p = [wildcardTail] then !sub.isEmpty
    else
      match sub with
      | [] => false
      | s :: sub => (p == [wildcardOne] || p == s) && matchTokens pat sub

/-- Whether a pattern matches a subject. -/
def matchesPattern (pattern subject : Bytes) : Bool := matchTokens (tokens pattern) (tokens subject)

/-- The walk of `filterCoveredByBinding` over the tokens of the filter and of the binding. -/
def coveredTokens : List Bytes → List Bytes → Bool
  | filter, [] => filter.isEmpty
  | filter, b :: binding =>
    if b = [wildcardTail] then !filter.isEmpty
    else
      match filter with
      | [] => false
      | f :: filter =>
        if f = [wildcardTail] then false
        else (b == [wildcardOne] || b == f) && coveredTokens filter binding

/-- Whether every subject a filter matches is also matched by a binding. -/
def filterCoveredByBinding (filter binding : Bytes) : Bool :=
  coveredTokens (tokens filter) (tokens binding)

end Subject

end IronBus
