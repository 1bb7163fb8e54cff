import Mathlib.Data.List.Forall2
import ObjectEnvelope.Proofs.Bytes.ReadBack
import ObjectEnvelope.Proofs.Bytes.ReaderRuns

/-!
# Writing items and reading them back

Items that were written one after the other are read back by their shapes, whatever follows them
(`WireItem.round_trip_of_writes`). Only a length can be refused, and what was written stays as it is
then.
-/

namespace ObjectEnvelope

namespace WireItem

variable {item : WireItem} {shape : Shape} {written after bytes : List UInt8}

/-! ## One item -/

/-- The length of the item, if it is written with one, fits in four bytes. -/
def LengthFits : WireItem → Prop
  | length n => n < 2 ^ 32
  | blob content => content.length < 2 ^ 32
  | text content => content.utf8ByteSize < 2 ^ 32
  | scalar _ | raw _ => True

theorem exists_encode_iff : (∃ bytes, item.encode = .ok bytes) ↔ item.LengthFits := by
  cases item with
  | length n => simp [encode, LengthFits, Write.length_eq_ok_iff]
  | blob content => simp [encode, LengthFits, Write.blob_eq_ok_iff]
  | text content => simp [encode, LengthFits, Write.text_eq_ok_iff]
  | _ => simp [encode, LengthFits]

theorem write_eq_ok_iff :
    item.write written = .ok () after ↔
      ∃ bytes, item.encode = .ok bytes ∧ after = written ++ bytes := by
  unfold write
  cases item.encode with
  | ok bytes => simp [eq_comm]
  | error e => simp

/-- A refused item leaves the bytes as they are; its length does not fit. -/
theorem write_eq_error {e : WireError} (h : item.write written = .error e after) :
    after = written ∧ ¬ item.LengthFits := by
  unfold write at h
  cases hencode : item.encode with
  | ok bytes =>
    rw [hencode] at h
    cases h
  | error e' =>
    rw [hencode] at h
    cases h
    refine ⟨rfl, fun hfits => ?_⟩
    obtain ⟨bytes, hbytes⟩ := exists_encode_iff.mpr hfits
    rw [hbytes] at hencode
    cases hencode

/-- A byte string is written as its length, and then as its bytes. -/
theorem write_blob_eq (content : List UInt8) :
    write (.blob content) = (do write (.length content.length); write (.raw content)) := by
  funext written
  show _ = EStateM.bind (write (.length content.length)) (fun _ => write (.raw content)) written
  simp only [EStateM.bind, write, encode, Write.blob]
  cases Write.length content.length with
  | ok front => exact congrArg (EStateM.Result.ok ()) (List.append_assoc written front content).symm
  | error e => rfl

theorem returns_read_of_hasShape (hshape : item.HasShape shape) (hlength : ∀ n, item ≠ .length n)
    (h : item.encode = .ok bytes) : Read.Returns shape.read bytes item := by
  cases hshape with
  | scalar s =>
    cases h
    exact (Read.returns_scalar s).map scalar
  | raw =>
    cases h
    exact (Read.returns_raw bytes).map raw
  | length n itemSize => exact absurd rfl (hlength n)
  | blob content => exact (Read.returns_blob h).map blob
  | text content => exact (Read.returns_text h).map text

/-! ## Items in a row -/

/-- What was written are the encodings of the items, one after the other. -/
theorem each_write_eq_ok {items : List WireItem} {units : List Unit}
    (h : Step.each write items written = .ok units after) :
    ∃ bytes, Write.all encode items = .ok bytes ∧ after = written ++ bytes := by
  induction items generalizing written units with
  | nil =>
    obtain ⟨-, rfl⟩ := Step.each_nil_eq_ok_iff.mp h
    exact ⟨[], rfl, (List.append_nil _).symm⟩
  | cons item items ih =>
    obtain ⟨_, between, others, hitem, hitems, -⟩ := Step.each_cons_eq_ok_iff.mp h
    obtain ⟨front, hfront, rfl⟩ := write_eq_ok_iff.mp hitem
    obtain ⟨back, hback, rfl⟩ := ih hitems
    refine ⟨front ++ back, ?_, List.append_assoc ..⟩
    simp only [Write.all, Outcome.bind_eq_ok_iff, Outcome.pure_eq_ok_iff]
    exact ⟨front, hfront, back, hback, rfl⟩

theorem returns_each_read {items : List WireItem} {shapes : List Shape}
    (hshapes : List.Forall₂ HasShape items shapes) (hlengths : ∀ n, .length n ∉ items)
    (h : Write.all encode items = .ok bytes) :
    Read.Returns (Step.each Shape.read shapes) bytes items := by
  induction hshapes generalizing bytes with
  | nil =>
    cases h
    exact .pure []
  | @cons item shape items shapes hitem hitems ih =>
    simp only [Write.all, Outcome.bind_eq_ok_iff, Outcome.pure_eq_ok_iff] at h
    obtain ⟨front, hfront, back, hback, rfl⟩ := h
    have hne : ∀ n, item ≠ .length n := by
      rintro n rfl
      exact hlengths n List.mem_cons_self
    have hothers := ih (fun n hmem => hlengths n (List.mem_cons_of_mem _ hmem)) hback
    exact (returns_read_of_hasShape hitem hne hfront).bind (hothers.map (item :: ·))

/-- **Items are read back.** Items of all kinds but lengths, written one after the other, are read
back by their shapes from what was written, whatever follows it, and the reader stops there; an
integer in the range of its kind is the one that its pattern stands for. A byte string is written as
its length and then its bytes, and an item that is refused leaves what was written as it is. -/
theorem round_trip_of_writes :
    (∀ (items : List WireItem) (shapes : List Shape) (units : List Unit)
        (bytes trailing : List UInt8),
      List.Forall₂ HasShape items shapes → (∀ n, .length n ∉ items) →
      Step.each write items [] = .ok units bytes →
      Step.each Shape.read shapes (Reader.ofBytes (bytes ++ trailing)) =
        .ok items ⟨bytes.length, trailing⟩) ∧
    (∀ (kind : ScalarKind) (n : Int), kind.InRange n → (Scalar.ofInt kind n).toInt = n) ∧
    (∀ content, write (.blob content) =
      (do write (.length content.length); write (.raw content))) ∧
    ∀ (item : WireItem) (written after : List UInt8) (e : WireError),
      write item written = .error e after → after = written ∧ ¬ item.LengthFits := by
  refine ⟨?_, fun _ _ => Scalar.toInt_ofInt, write_blob_eq, fun _ _ _ _ => write_eq_error⟩
  intro items shapes units bytes trailing hshapes hlengths hwrite
  obtain ⟨_, hbytes, rfl⟩ := each_write_eq_ok hwrite
  have hread := returns_each_read hshapes hlengths hbytes 0 trailing
  rwa [Nat.zero_add] at hread

/-- A byte, a negative number of two bytes, an unsigned number and a fraction, a text that is longer
in bytes than in characters, bytes with and without their length; then two bytes more. -/
theorem round_trip_of_mixed_writes :
    ScalarKind.i16.InRange (-2) ∧ (Scalar.ofInt .i16 (-2)).toInt = -2 ∧
    Step.each Shape.read
        [.scalar .u8, .scalar .i16, .scalar .u32, .scalar .f64, .text, .raw 2, .blob]
        (Reader.ofBytes ([0xAB, 0xFE, 0xFF, 0xEF, 0xBE, 0xAD, 0xDE, 0, 0, 0, 0, 0, 0, 0xF8, 0x3F,
          3, 0, 0, 0, 0x68, 0xC3, 0xA9, 7, 8, 1, 0, 0, 0, 9] ++ [5, 6])) =
      .ok [.scalar (.ofInt .u8 0xAB), .scalar (.ofInt .i16 (-2)), .scalar (.ofInt .u32 0xDEADBEEF),
        .scalar (.ofNat .f64 0x3FF8000000000000), .text "hé", .raw [7, 8], .blob [9]]
        ⟨29, [5, 6]⟩ := by
  have hrange : ScalarKind.i16.InRange (-2) := by decide
  obtain ⟨hread, hint, -, -⟩ := round_trip_of_writes
  refine ⟨hrange, hint _ _ hrange, hread _ _ (List.replicate 7 ()) _ [5, 6] ?_ (by simp) rfl⟩
  exact .cons (.scalar _) (.cons (.scalar _) (.cons (.scalar _) (.cons (.scalar _)
    (.cons (.text _) (.cons (.raw _) (.cons (.blob _) .nil))))))

end WireItem

end ObjectEnvelope
