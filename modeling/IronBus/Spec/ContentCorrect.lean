import IronBus.Native.Content
import IronBus.Spec.Frames

/-!
# What a record keeps when it is appended again
-/

namespace IronBus

open Codec

variable [Checksums]

/-- A decoded record that has neither a subject nor a stream tag keeps its content. -/
theorem appended_eq_content {input : Bytes} {f : DecodedFrame} (hf : decodeInner input = .ok f)
    (hsubject : f.subject = []) (htag : f.streamTag = []) : f.view.appended = f.content := by
  have hflags := (frameBytes_of_decodeInner hf).2.2.1
  rw [hsubject, htag] at hflags
  rw [RecordView.appended, DecodedFrame.content, hflags, hsubject]

theorem decodeRun_fst (bytes : Bytes) : (decodeRun bytes).1 = frames bytes := by
  unfold decodeRun
  simp only
  split
  · rfl
  · split <;> rfl

end IronBus
