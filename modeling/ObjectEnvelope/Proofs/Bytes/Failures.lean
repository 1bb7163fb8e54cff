import ObjectEnvelope.Payload.Tag
import ObjectEnvelope.Proofs.Runs

/-!
# How reading fails

A read fails in one way only: the bytes are not what they have to be (`WireError.Malformed`). In
particular nothing that is read can be called a value without an encoding, the failure that is kept
for writing; `WireError.BlamesInput` is what remains of the failures without it.
-/

namespace ObjectEnvelope

open Step (FailsOnly)

/-- The failure says that the bytes are no envelope. -/
def WireError.Malformed (e : WireError) : Prop :=
  e.kind = .invalidEnvelope

/-- The failure does not say that a value has no encoding. -/
def WireError.BlamesInput (e : WireError) : Prop :=
  e.kind ≠ .notSerializable

theorem WireError.malformed (fault : FormatFault) : (WireError.invalidEnvelope fault).Malformed :=
  rfl

theorem WireError.mismatched (fault : Mismatch) : (WireError.schemaMismatch fault).BlamesInput :=
  nofun

theorem WireError.Malformed.blamesInput {e : WireError} (h : e.Malformed) : e.BlamesInput := by
  unfold Malformed at h
  rw [BlamesInput, h]
  decide

namespace Read

theorem raw_fails (count : Nat) : FailsOnly WireError.Malformed (raw count) := by
  intro r e after h
  unfold raw at h
  split at h
  · cases h
  · cases h
    rfl

theorem byte_fails : FailsOnly WireError.Malformed byte := by
  intro r e after h
  unfold byte at h
  split at h
  · cases h
  · cases h
    rfl

theorem flag_fails (fault : UInt8 → FormatFault) : FailsOnly WireError.Malformed (flag fault) := by
  refine .bind byte_fails fun found => ?_
  split
  · exact .pure _
  · split
    · exact .pure _
    · exact .throw (WireError.malformed _)

theorem number_fails (width : Nat) : FailsOnly WireError.Malformed (number width) :=
  .bind (raw_fails width) fun _ => .pure _

theorem scalar_fails (kind : ScalarKind) : FailsOnly WireError.Malformed (scalar kind) :=
  .bind (raw_fails kind.width) fun _ => .pure _

theorem length_fails (itemSize : Nat) : FailsOnly WireError.Malformed (length itemSize) := by
  refine .bind (number_fails 4) fun count => .bind .get fun r => ?_
  split
  · exact .pure _
  · exact .throw (WireError.malformed _)

theorem blob_fails : FailsOnly WireError.Malformed blob :=
  .bind (length_fails 1) raw_fails

theorem text_fails : FailsOnly WireError.Malformed text := by
  refine .bind blob_fails fun content => ?_
  split
  · exact .pure _
  · exact .throw (WireError.malformed _)

end Read

namespace Primitive

open Read

theorem readChar_fails : FailsOnly WireError.Malformed readChar := by
  refine .bind (number_fails 4) fun scalar => ?_
  by_cases hvalid : scalar.isValidChar
  · rw [dif_pos hvalid]
    exact .pure _
  · rw [dif_neg hvalid]
    exact .throw (WireError.malformed _)

theorem read_fails (kind : PrimitiveKind) : FailsOnly WireError.Malformed (read kind) := by
  cases kind with
  | bool => exact .bind (flag_fails _) fun _ => .pure _
  | scalar kind => exact .bind (scalar_fails kind) fun _ => .pure _
  | char => exact .bind readChar_fails fun _ => .pure _
  | string => exact .bind text_fails fun _ => .pure _
  | bytes => exact .bind blob_fails fun _ => .pure _

end Primitive

end ObjectEnvelope
