import ObjectEnvelope.Payload.Tag
import ObjectEnvelope.Proofs.Bytes.FixedWidth
import ObjectEnvelope.Proofs.Runs

/-!
# When an item can be written

Lengths are written in four bytes, and nothing else can fail: a byte string, a text or a primitive
is written exactly when its length fits (`Primitive.exists_encode_iff`).
-/

namespace ObjectEnvelope

namespace Write

variable {bytes : List UInt8}

theorem length_eq_ok_iff {n : Nat} :
    Write.length n = .ok bytes ↔ n < 2 ^ 32 ∧ bytes = LittleEndian.ofNat 4 n := by
  have hsize : UInt32.size = 2 ^ 32 := rfl
  rw [Write.length, hsize]
  by_cases h : n < 2 ^ 32
  · rw [if_pos h, Except.ok.injEq, and_iff_right h]
    exact eq_comm
  · rw [if_neg h]
    constructor
    · rintro ⟨⟩
    · rintro ⟨hlt, -⟩
      exact absurd hlt h

theorem blob_eq_ok_iff {content : List UInt8} :
    blob content = .ok bytes ↔
      content.length < 2 ^ 32 ∧ bytes = LittleEndian.ofNat 4 content.length ++ content := by
  simp only [blob, Outcome.bind_eq_ok_iff, length_eq_ok_iff, Outcome.pure_eq_ok_iff]
  constructor
  · rintro ⟨_, ⟨hlt, rfl⟩, rfl⟩
    exact ⟨hlt, rfl⟩
  · rintro ⟨hlt, rfl⟩
    exact ⟨_, ⟨hlt, rfl⟩, rfl⟩

theorem text_eq_ok_iff {content : String} :
    text content = .ok bytes ↔
      content.utf8ByteSize < 2 ^ 32 ∧
        bytes = LittleEndian.ofNat 4 content.utf8ByteSize ++ Utf8.encode content := by
  rw [text, blob_eq_ok_iff, Utf8.length_encode]

theorem le_length_of_text {content : String} (h : text content = .ok bytes) : 4 ≤ bytes.length := by
  obtain ⟨-, rfl⟩ := text_eq_ok_iff.mp h
  simp

theorem le_length_of_counted {α : Type} {write : α → Except WireError (List UInt8)} {items : List α}
    (h : counted write items = .ok bytes) : 4 ≤ bytes.length := by
  simp only [counted, Outcome.bind_eq_ok_iff, length_eq_ok_iff, Outcome.pure_eq_ok_iff] at h
  obtain ⟨_, ⟨-, rfl⟩, body, -, rfl⟩ := h
  simp

/-- Items of a least size take as many times that size. -/
theorem le_length_of_all {α : Type} {write : α → Except WireError (List UInt8)} {size : Nat}
    {items : List α}
    (hitem : ∀ a ∈ items, ∀ bytes, write a = .ok bytes → size ≤ bytes.length)
    (h : all write items = .ok bytes) : items.length * size ≤ bytes.length := by
  induction items generalizing bytes with
  | nil => simp
  | cons a others ih =>
    obtain ⟨ha, hothers⟩ := List.forall_mem_cons.mp hitem
    simp only [all, Outcome.bind_eq_ok_iff, Outcome.pure_eq_ok_iff] at h
    obtain ⟨first, hfirst, rest, hrest, rfl⟩ := h
    have hle := ha first hfirst
    have hle' := ih hothers hrest
    rw [List.length_append, List.length_cons, Nat.succ_mul]
    omega

theorem counted_eq_ok_iff {α : Type} {write : α → Except WireError (List UInt8)} {items : List α} :
    counted write items = .ok bytes ↔ items.length < 2 ^ 32 ∧ ∃ body,
      all write items = .ok body ∧ bytes = LittleEndian.ofNat 4 items.length ++ body := by
  simp only [counted, Outcome.bind_eq_ok_iff, length_eq_ok_iff, Outcome.pure_eq_ok_iff]
  constructor
  · rintro ⟨_, ⟨hlt, rfl⟩, body, hbody, rfl⟩
    exact ⟨hlt, body, hbody, rfl⟩
  · rintro ⟨hlt, body, hbody, rfl⟩
    exact ⟨_, ⟨hlt, rfl⟩, body, hbody, rfl⟩

end Write

namespace Primitive

/-- The length of the primitive, if it is written with one, fits in four bytes. -/
def LengthFits : Primitive → Prop
  | text content => content.utf8ByteSize < 2 ^ 32
  | bytes content => content.length < 2 ^ 32
  | bool _ | scalar _ | char _ => True

/-- A primitive has an encoding exactly when its length fits. -/
theorem exists_encode_iff {p : Primitive} : (∃ body, p.encode = .ok body) ↔ p.LengthFits := by
  cases p with
  | text content => simp [encode, LengthFits, Write.text_eq_ok_iff]
  | bytes content => simp [encode, LengthFits, Write.blob_eq_ok_iff]
  | _ => simp [encode, LengthFits]

end Primitive

end ObjectEnvelope
