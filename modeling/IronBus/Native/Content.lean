import IronBus.Native.SegmentReader

/-!
# Records that move from log to log

A record that was read from one log, or arrived as a frame over the wire, is appended to another:
the new log assigns a sequence number of its own. What both copies have in common is the content of
the record.
-/

namespace IronBus

open Codec

/-- What a record says: all of a frame but its sequence number, which the log that stores it
assigns. -/
structure Content where
  timestampMs : Nat
  flags : UInt8
  key : Bytes
  headers : Bytes
  payload : Bytes
  subject : Bytes
  deriving DecidableEq

def DecodedFrame.content (f : DecodedFrame) : Content :=
  ⟨f.view.timestampMs, f.view.flags, f.view.key, f.view.headers, f.view.payload, f.subject⟩

/-- What a log stores for a decoded record that is appended again: the presence bits are derived
anew, and neither a subject nor a stream tag goes with it. -/
def RecordView.appended (v : RecordView) : Content :=
  ⟨v.timestampMs, storedFlags v [] [], v.key, v.headers, v.payload, []⟩

section Runs

variable [Checksums]

/-- The frames of a run of bytes, and why the walk stopped before its end. -/
def decodeRun (bytes : Bytes) : List DecodedFrame × Option DecodeError :=
  let run := frames bytes
  match bytes.drop (framesLen run) with
  | [] => (run, none)
  | rest =>
    match decodeInner rest with
    | .error reason => (run, some reason)
    | .ok _ => (run, none)

end Runs

end IronBus
