import IronBus.ForStd.Bytes
import IronBus.ForStd.SortedSet
import IronBus.ForStd.TouchHeap
import IronBus.Native.Error

/-!
# The transaction table

The lifecycle of half messages: prepared, then committed or rolled back. Prepared transactions are
indexed by their prepare instant for the back-check; resolved ones leave a tombstone, of which a
bounded number is kept, so that a retried resolve is recognised.
-/

namespace IronBus

def maxTxnIdLen : Nat := 256

structure TxnConfig where
  maxPrepared : Nat
  maxResolvedTombstones : Nat

inductive TxnOutcome where
  | committed
  | rolledBack
  deriving DecidableEq

inductive TxnState where
  | prepared
  | resolved (outcome : TxnOutcome)
  deriving DecidableEq

inductive PrepareDecision where
  | prepared
  | alreadyPrepared
  deriving DecidableEq

inductive ResolveDecision where
  | resolved
  | alreadyResolved
  deriving DecidableEq

inductive TxnError where
  | unknownTxn
  | alreadyResolved (outcome : TxnOutcome)
  | txnIdSpent (outcome : TxnOutcome)
  | tooManyPrepared (cap : Nat)
  | txnIdTooLong (len : Nat)
  deriving DecidableEq

structure TxnEntry where
  state : TxnState
  /-- The prepare instant while prepared, the resolve instant once resolved. -/
  instant : Nat
  deriving DecidableEq

/-- The order of the age index: by instant, then by id. -/
def ageLt (a b : Nat × Bytes) : Prop := a.1 < b.1 ∨ a.1 = b.1 ∧ a.2 < b.2

instance : DecidableRel ageLt := fun _ _ => inferInstanceAs (Decidable (_ ∨ _))

instance : IsTrans (Nat × Bytes) ageLt where
  trans a b c hab hbc := by
    rcases hab with hab | ⟨hab, hlt⟩ <;> rcases hbc with hbc | ⟨hbc, hlt'⟩
    · exact .inl (hab.trans hbc)
    · exact .inl (hbc ▸ hab)
    · exact .inl (hab ▸ hbc)
    · exact .inr ⟨hab.trans hbc, List.lt_trans hlt hlt'⟩

instance : Std.Irrefl ageLt where
  irrefl _ h := h.elim (Nat.lt_irrefl _) fun h => List.lt_irrefl _ h.2

instance : Std.Trichotomous ageLt where
  trichotomous a b hab hba := by
    simp only [ageLt, not_or, not_and] at hab hba
    have hfst : a.1 = b.1 := by omega
    exact Prod.ext hfst (Std.Trichotomous.trichotomous (r := (· < ·)) _ _ (hab.2 hfst)
      (hba.2 hfst.symm))

structure TxnTable where
  config : TxnConfig
  prepared : Assoc Bytes TxnEntry
  /-- (prepare instant, id) of the prepared transactions. -/
  preparedByAge : SortedSet ageLt
  /-- The tombstones. -/
  resolved : Assoc Bytes TxnEntry
  /-- The heap of (resolve instant, id), least first. -/
  resolvedLru : List (Nat × Bytes)

namespace TxnTable

def new (config : TxnConfig) : TxnTable where
  config := ⟨max config.maxPrepared 1, max config.maxResolvedTombstones 1⟩
  prepared := ∅
  preparedByAge := ∅
  resolved := ∅
  resolvedLru := []

/-- Where a transaction is in its lifecycle; none if it is not tracked. -/
def state (t : TxnTable) (txnId : Bytes) : Option TxnState :=
  match t.prepared.lookup txnId with
  | some e => some e.state
  | none => (t.resolved.lookup txnId).map TxnEntry.state

def checkIdLen (txnId : Bytes) : Except TxnError Unit :=
  if maxTxnIdLen < txnId.length then .error (.txnIdTooLong txnId.length) else .ok ()

/-- Enters a transaction as prepared. -/
def insertPrepared (t : TxnTable) (txnId : Bytes) (now : Nat) : TxnTable :=
  { t with
    prepared := t.prepared.insert txnId ⟨.prepared, now⟩
    preparedByAge := t.preparedByAge.insert (now, txnId) }

/-- Takes a prepared transaction out of the table and the age index. -/
def removePrepared (t : TxnTable) (txnId : Bytes) : TxnTable :=
  match t.prepared.lookup txnId with
  | none => t
  | some entry =>
    { t with
      prepared := t.prepared.erase txnId
      preparedByAge := t.preparedByAge.erase (entry.instant, txnId) }

/-- Stores a tombstone and records it on the heap. -/
def putResolved (t : TxnTable) (txnId : Bytes) (outcome : TxnOutcome) (now : Nat) : TxnTable :=
  let resolved := t.resolved.insert txnId ⟨.resolved outcome, now⟩
  { t with
    resolved := resolved
    resolvedLru := TouchHeap.push TxnEntry.instant resolved t.resolvedLru txnId now }

/-- Stores a tombstone, making room for it first. -/
def insertResolvedTombstone (t : TxnTable) (txnId : Bytes) (outcome : TxnOutcome) (now : Nat) :
    TxnTable :=
  let t :=
    if (t.resolved.lookup txnId).isNone ∧ t.config.maxResolvedTombstones ≤ t.resolved.size then
      let evicted := TouchHeap.evict TxnEntry.instant t.config.maxResolvedTombstones t.resolvedLru
        t.resolved
      { t with resolved := evicted.1, resolvedLru := evicted.2 }
    else t
  t.putResolved txnId outcome now

def prepare (t : TxnTable) (txnId : Bytes) (now : Nat) :
    Except TxnError PrepareDecision × TxnTable :=
  match checkIdLen txnId with
  | .error e => (.error e, t)
  | .ok () =>
    if (t.prepared.lookup txnId).isSome then (.ok .alreadyPrepared, t)
    else
      match (t.resolved.lookup txnId).map TxnEntry.state with
      | some (.resolved outcome) => (.error (.txnIdSpent outcome), t)
      | _ =>
        if t.config.maxPrepared ≤ t.prepared.size then
          (.error (.tooManyPrepared t.config.maxPrepared), t)
        else (.ok .prepared, t.insertPrepared txnId now)

def resolve (t : TxnTable) (txnId : Bytes) (outcome : TxnOutcome) (now : Nat) :
    Except TxnError ResolveDecision × TxnTable :=
  match checkIdLen txnId with
  | .error e => (.error e, t)
  | .ok () =>
    if (t.prepared.lookup txnId).isSome then
      (.ok .resolved, (t.removePrepared txnId).insertResolvedTombstone txnId outcome now)
    else
      match (t.resolved.lookup txnId).map TxnEntry.state with
      | some (.resolved prior) =>
        if prior = outcome then (.ok .alreadyResolved, t) else (.error (.alreadyResolved prior), t)
      | _ => (.error .unknownTxn, t)

def commit (t : TxnTable) (txnId : Bytes) (now : Nat) :
    Except TxnError ResolveDecision × TxnTable :=
  t.resolve txnId .committed now

def rollback (t : TxnTable) (txnId : Bytes) (now : Nat) :
    Except TxnError ResolveDecision × TxnTable :=
  t.resolve txnId .rolledBack now

/-- Undoes a resolve whose durable steps failed. -/
def revertResolvedToPrepared (t : TxnTable) (txnId : Bytes) (now : Nat) : TxnTable :=
  if (t.resolved.lookup txnId).isSome then
    { t with resolved := t.resolved.erase txnId }.insertPrepared txnId now
  else t

/-- Undoes a prepare that is not going to be stored. -/
def cancelPrepared (t : TxnTable) (txnId : Bytes) : TxnTable := t.removePrepared txnId

/-- The prepared transactions from up to an instant, oldest first. -/
def unresolvedBefore (t : TxnTable) (cutoff : Nat) : List (Bytes × Nat) :=
  match checkedAdd cutoff 1 with
  | some next => (t.preparedByAge.below (next, [])).map Prod.swap
  | none => t.preparedByAge.elems.map Prod.swap

/-- Enters what a replay of the durable log found. -/
def restore (t : TxnTable) (txnId : Bytes) (state : TxnState) (instant : Nat) : TxnTable :=
  let t := t.removePrepared txnId
  match state with
  | .prepared => t.insertPrepared txnId instant
  | .resolved outcome => t.putResolved txnId outcome instant

end TxnTable

end IronBus
