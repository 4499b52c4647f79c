import IronBus.Native.SegmentReader

/-!
# Delivery policy

What decides whether a record may be delivered at all (its time to live and its due time, both
kept in the front of its headers), how often (the delivery limit and the backoff of a nack), and
whether a redelivery has to wait (the broker-side retry budget).
-/

namespace IronBus

/-! ## Time to live -/

namespace Ttl

/-- `TTL1` -/
def headerMagic : Bytes := [84, 84, 76, 49]

def headerLen : Nat := 12

/-- The per-message time to live at the front of the headers, zero without one. -/
def decodeTtlHeaders (headers : Bytes) : Nat :=
  if headers.length < headerLen ∨ headers.readAt 0 4 ≠ headerMagic then 0 else headers.natAt 4 8

/-- The lower of two times to live, where zero means none. -/
def lowerOf (perMessage perStream : Nat) : Nat :=
  if perMessage = 0 then perStream
  else if perStream = 0 then perMessage
  else if perMessage ≤ perStream then perMessage else perStream

def isExpired (ttl timestampMs nowUnixMillis : Nat) : Bool :=
  if ttl = 0 then false else decide (saturatingAdd timestampMs ttl ≤ nowUnixMillis)

end Ttl

/-! ## Delayed delivery -/

namespace Delay

/-- `DUE1` -/
def dueHeaderMagic : Bytes := [68, 85, 69, 49]

def headerLen : Nat := 12

/-- A due time stands first in the headers, or right behind a time to live. -/
def delayBlockOffset (headers : Bytes) : Nat :=
  if Ttl.headerLen ≤ headers.length ∧ headers.readAt 0 4 = Ttl.headerMagic then Ttl.headerLen
  else 0

/-- The milliseconds of the block at `pos`, if there is one with this magic. -/
def blockMillis (headers : Bytes) (pos : Nat) (magic : Bytes) : Option Nat :=
  if headers.length < pos + headerLen then none
  else if headers.readAt pos 4 ≠ magic then none
  else some (headers.natAt (pos + 4) 8)

def decodeDueHeaders (headers : Bytes) : Option Nat :=
  blockMillis headers (delayBlockOffset headers) dueHeaderMagic

def isUndue (headers : Bytes) (nowUnixMs : Nat) : Bool :=
  (decodeDueHeaders headers).any fun due => decide (nowUnixMs < due)

end Delay

/-! ## Delivery limit and backoff -/

inductive Disposition where
  | deliver
  | deadLetter
  deriving DecidableEq

structure DeliveryConfig where
  /-- Zero means no limit. -/
  maxDeliver : Nat
  backoffNanos : List Nat
  /-- How many redeliveries force the attempt counts to disk; zero means none do. -/
  attemptsFlushRedeliveries : Nat

namespace DeliveryConfig

def disposition (c : DeliveryConfig) (deliveries : Nat) : Disposition :=
  if c.maxDeliver ≠ 0 ∧ c.maxDeliver < deliveries then .deadLetter else .deliver

/-- The backoff of an attempt: its own entry, or the last one. -/
def nackBackoff (c : DeliveryConfig) (attempt : Nat) : Nat :=
  (c.backoffNanos[min (attempt - 1) (c.backoffNanos.length - 1)]?).getD 0

def effectiveNackDelay (c : DeliveryConfig) (attempt : Nat) (explicitDelay : Option Nat) : Nat :=
  explicitDelay.getD (c.nackBackoff attempt)

end DeliveryConfig

/-! ## The retry budget -/

structure RetryBudget where
  ratioPerMillion : Nat
  windowNanos : Nat
  requests : Nat
  accepts : Nat
  retriesAllowed : Nat
  windowStart : Option Nat

/-- Saturating `u64` multiplication. -/
def saturatingMul (a b : Nat) : Nat := min (a * b) u64Max

namespace RetryBudget

def retryBudgetK : Nat := 2

/-- Starts a new window once the current one has passed. -/
def roll (b : RetryBudget) (now : Nat) : RetryBudget :=
  match b.windowStart with
  | none => { b with windowStart := some now }
  | some start =>
    if b.windowNanos ≤ now - start then
      { b with requests := 0, accepts := 0, retriesAllowed := 0, windowStart := some now }
    else b

/-- Whether a retry is held back, and the budget after it. -/
def shouldThrottle (b : RetryBudget) (now : Nat) : Bool × RetryBudget :=
  let b := b.roll now
  if b.ratioPerMillion = 0 then (false, { b with requests := saturatingAdd b.requests 1 })
  else
    let numerator := b.requests - saturatingMul retryBudgetK b.accepts
    let budget := saturatingMul b.requests b.ratioPerMillion / 1000000
    if numerator = 0 ∨ b.retriesAllowed < budget then
      (false, { b with
        retriesAllowed := saturatingAdd b.retriesAllowed 1
        requests := saturatingAdd b.requests 1 })
    else (true, b)

end RetryBudget

end IronBus
