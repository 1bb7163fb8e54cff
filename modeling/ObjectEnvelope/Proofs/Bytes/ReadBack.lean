import ObjectEnvelope.Proofs.Bytes.Writing

/-!
# Reading back what was written

A step reads something back from its bytes (`Read.Returns`) when it returns it whatever follows
them, and takes no byte more. What is read in parts is read back when its parts are; the one
exception are lengths, which look ahead at what they count (`Returns.length`).
-/

namespace ObjectEnvelope

namespace Read

variable {α β : Type} {bytes rest : List UInt8} {a : α} {b : β}

/-- From the bytes, whatever follows them, the step returns the result, and leaves what follows. -/
def Returns (step : Read α) (bytes : List UInt8) (a : α) : Prop :=
  ∀ offset tail, step ⟨offset, bytes ++ tail⟩ = .ok a ⟨offset + bytes.length, tail⟩

theorem Returns.pure (a : α) : Returns (pure a) [] a :=
  fun _ _ => rfl

theorem Returns.bind {step : Read α} {next : α → Read β} (hstep : Returns step bytes a)
    (hnext : Returns (next a) rest b) : Returns (step >>= next) (bytes ++ rest) b := by
  intro offset tail
  refine Step.bind_eq_ok_iff.mpr ⟨a, ⟨offset + bytes.length, rest ++ tail⟩, ?_, ?_⟩
  · rw [List.append_assoc]
    exact hstep offset (rest ++ tail)
  · rw [List.length_append, ← Nat.add_assoc]
    exact hnext _ tail

/-- What is worked out of a result takes no bytes. -/
theorem Returns.working {step : Read α} {next : α → Read β} (hstep : Returns step bytes a)
    (hnext : Returns (next a) [] b) : Returns (step >>= next) bytes b := by
  have h := hstep.bind hnext
  rwa [List.append_nil] at h

theorem Returns.map {step : Read α} (f : α → β) (hstep : Returns step bytes a) :
    Returns (do return f (← step)) bytes (f a) :=
  hstep.working (.pure (f a))

theorem returns_raw (bytes : List UInt8) : Returns (raw bytes.length) bytes bytes := by
  intro offset tail
  have hsplit : Reader.splitAt? bytes.length (bytes ++ tail) = some (bytes, tail) :=
    Reader.splitAt?_eq_some_iff.mpr ⟨rfl, rfl⟩
  simp only [raw, hsplit]

theorem returns_byte (b : UInt8) : Returns byte [b] b :=
  fun _ _ => rfl

theorem returns_flag (fault : UInt8 → FormatFault) (b : Bool) :
    Returns (flag fault) (Write.flag b) b := by
  intro offset tail
  cases b <;> rfl

theorem returns_number {width n : Nat} (h : n < 256 ^ width) :
    Returns (number width) (LittleEndian.ofNat width n) n := by
  have hraw := returns_raw (LittleEndian.ofNat width n)
  rw [LittleEndian.length_ofNat] at hraw
  have hmap := hraw.map LittleEndian.toNat
  rwa [LittleEndian.toNat_ofNat_of_lt h] at hmap

theorem returns_scalar (s : Scalar) : Returns (scalar s.kind) s.encode s := by
  have hraw := returns_raw s.encode
  rw [Scalar.length_encode] at hraw
  have hmap := hraw.map (Scalar.decode s.kind)
  rwa [Scalar.decode_encode] at hmap

/-- A length is read back as long as what it counts follows. -/
theorem length_eq_ok {n itemSize offset : Nat} {tail : List UInt8} (h : n < 2 ^ 32)
    (htail : n * max itemSize 1 ≤ tail.length) :
    length itemSize ⟨offset, LittleEndian.ofNat 4 n ++ tail⟩ = .ok n ⟨offset + 4, tail⟩ := by
  have hnumber := @returns_number 4 n h offset tail
  rw [LittleEndian.length_ofNat] at hnumber
  refine Step.bind_eq_ok_iff.mpr ⟨n, _, hnumber, Step.bind_eq_ok_iff.mpr ⟨_, _, rfl, ?_⟩⟩
  rw [if_pos (Reader.hasAtLeast_eq_true_iff.mpr htail)]
  rfl

/-- What is read after a length is read back, when it is as long as the length asks. -/
theorem Returns.length {n itemSize : Nat} {next : Nat → Read β} (h : n < 2 ^ 32)
    (hrest : n * max itemSize 1 ≤ rest.length) (hnext : Returns (next n) rest b) :
    Returns (length itemSize >>= next) (LittleEndian.ofNat 4 n ++ rest) b := by
  intro offset tail
  have htail : n * max itemSize 1 ≤ (rest ++ tail).length := by
    rw [List.length_append]
    omega
  refine Step.bind_eq_ok_iff.mpr ⟨n, ⟨offset + 4, rest ++ tail⟩, ?_, ?_⟩
  · rw [List.append_assoc]
    exact length_eq_ok h htail
  · rw [List.length_append, LittleEndian.length_ofNat, ← Nat.add_assoc]
    exact hnext _ tail

theorem returns_blob {content : List UInt8} (h : Write.blob content = .ok bytes) :
    Returns blob bytes content := by
  obtain ⟨hlength, rfl⟩ := Write.blob_eq_ok_iff.mp h
  exact .length hlength (by simp) (returns_raw content)

theorem returns_text {content : String} (h : Write.text content = .ok bytes) :
    Returns text bytes content := by
  refine (returns_blob h).working fun offset tail => ?_
  rw [Utf8.decode_encode]
  rfl

/-! ## Reading that may be refused -/

/-- From the bytes, whatever follows them, the step returns the result and leaves what follows,
unless it is refused. -/
def ReturnsUnless (refusal : WireError → Prop) (step : Read α) (bytes : List UInt8) (a : α) :
    Prop :=
  ∀ offset tail, Step.Yields step ⟨offset, bytes ++ tail⟩
    (fun b r => b = a ∧ r = ⟨offset + bytes.length, tail⟩) refusal

variable {refusal refusal' : WireError → Prop}

theorem Returns.unless {step : Read α} (h : Returns step bytes a) :
    ReturnsUnless refusal step bytes a :=
  fun offset tail => .inl ⟨a, _, h offset tail, rfl, rfl⟩

theorem ReturnsUnless.pure (a : α) : ReturnsUnless refusal (Pure.pure a) [] a :=
  (Returns.pure a).unless

theorem ReturnsUnless.throw {e : WireError} (he : refusal e) :
    ReturnsUnless refusal (MonadExcept.throw e) bytes a :=
  fun _ _ => .inr ⟨e, _, rfl, he⟩

theorem ReturnsUnless.mono {step : Read α} (h : ReturnsUnless refusal step bytes a)
    (himp : ∀ e, refusal e → refusal' e) : ReturnsUnless refusal' step bytes a := by
  intro offset tail
  rcases h offset tail with hok | ⟨e, r, hrun, he⟩
  · exact .inl hok
  · exact .inr ⟨e, r, hrun, himp e he⟩

theorem ReturnsUnless.bind {step : Read α} {next : α → Read β}
    (hstep : ReturnsUnless refusal step bytes a) (hnext : ReturnsUnless refusal (next a) rest b) :
    ReturnsUnless refusal (step >>= next) (bytes ++ rest) b := by
  intro offset tail
  rw [List.append_assoc, List.length_append, ← Nat.add_assoc]
  refine (hstep offset (rest ++ tail)).bind ?_
  rintro _ _ ⟨rfl, rfl⟩
  exact hnext _ tail

theorem ReturnsUnless.working {step : Read α} {next : α → Read β}
    (hstep : ReturnsUnless refusal step bytes a) (hnext : ReturnsUnless refusal (next a) [] b) :
    ReturnsUnless refusal (step >>= next) bytes b := by
  have h := hstep.bind hnext
  rwa [List.append_nil] at h

theorem yields_length {n itemSize offset : Nat} {tail : List UInt8} (h : n < 2 ^ 32)
    (htail : n * max itemSize 1 ≤ tail.length) :
    Step.Yields (Read.length itemSize) ⟨offset, LittleEndian.ofNat 4 n ++ tail⟩
      (fun m r => n = m ∧ (⟨offset + 4, tail⟩ : Reader) = r) refusal :=
  .inl ⟨n, _, length_eq_ok h htail, rfl, rfl⟩

theorem ReturnsUnless.length {n itemSize : Nat} {next : Nat → Read β} (h : n < 2 ^ 32)
    (hrest : n * max itemSize 1 ≤ rest.length) (hnext : ReturnsUnless refusal (next n) rest b) :
    ReturnsUnless refusal (Read.length itemSize >>= next) (LittleEndian.ofNat 4 n ++ rest) b := by
  intro offset tail
  have htail : n * max itemSize 1 ≤ (rest ++ tail).length := by
    rw [List.length_append]
    omega
  rw [List.append_assoc, List.length_append, LittleEndian.length_ofNat, ← Nat.add_assoc]
  refine (yields_length h htail).bind ?_
  rintro _ _ ⟨rfl, rfl⟩
  exact hnext _ tail

/-- Items that are read back one by one are read back in a run. -/
theorem returnsUnless_times {read : Read α} {write : α → Except WireError (List UInt8)}
    {items : List α} (hitem : ∀ a ∈ items, ∀ bytes, write a = .ok bytes →
      ReturnsUnless refusal read bytes a) (h : Write.all write items = .ok bytes) :
    ReturnsUnless refusal (Step.times read items.length) bytes items := by
  induction items generalizing bytes with
  | nil =>
    cases h
    exact .pure []
  | cons a others ih =>
    obtain ⟨ha, hothers⟩ := List.forall_mem_cons.mp hitem
    simp only [Write.all, Outcome.bind_eq_ok_iff, Outcome.pure_eq_ok_iff] at h
    obtain ⟨first, hfirst, rest, hrest, rfl⟩ := h
    refine (ha first hfirst).bind ?_
    exact (ih hothers hrest).working (.pure _)

/-- Counted items are read back as long as none is smaller than the reader expects. -/
theorem ReturnsUnless.counted {read : Read α} {write : α → Except WireError (List UInt8)}
    {items : List α} {size : Nat} {next : List α → Read β} (hsize : 0 < size)
    (hitem : ∀ a ∈ items, ∀ bytes, write a = .ok bytes →
      size ≤ bytes.length ∧ ReturnsUnless refusal read bytes a)
    (h : Write.counted write items = .ok bytes)
    (hnext : ReturnsUnless refusal (next items) rest b) :
    ReturnsUnless refusal (Read.length size >>= fun count => Step.times read count >>= next)
      (bytes ++ rest) b := by
  obtain ⟨hlt, body, hbody, rfl⟩ := Write.counted_eq_ok_iff.mp h
  have hle := Write.le_length_of_all (fun a ha bs hbs => (hitem a ha bs hbs).1) hbody
  rw [List.append_assoc]
  refine .length hlt ?_ ((returnsUnless_times (fun a ha bs hbs => (hitem a ha bs hbs).2) hbody).bind
    hnext)
  rw [Nat.max_eq_left hsize, List.length_append]
  omega

end Read

namespace Primitive

open Read

/-- Characters are read back from their code points. -/
theorem returns_readChar (c : Char) :
    Returns readChar (LittleEndian.ofNat 4 c.toNat) c := by
  have hlt : c.toNat < 256 ^ 4 := c.val.toNat_lt
  have hvalid : c.toNat.isValidChar := c.valid
  have hchar : Returns (if h : c.toNat.isValidChar then return Char.ofNatAux c.toNat h
      else throw (.invalidEnvelope (.charScalar c.toNat))) [] c := by
    rw [dif_pos hvalid]
    exact .pure c
  exact (returns_number hlt).working hchar

/-- Whatever has an encoding is read back from it. -/
theorem returns_read {p : Primitive} {bytes : List UInt8} (h : p.encode = .ok bytes) :
    Returns (read p.kind) bytes p := by
  cases p with
  | bool b =>
    cases h
    exact (returns_flag _ b).map bool
  | scalar s =>
    cases h
    exact (returns_scalar s).map scalar
  | char c =>
    cases h
    exact (returns_readChar c).map char
  | text content => exact (returns_text h).map text
  | bytes content => exact (returns_blob h).map Primitive.bytes

end Primitive

end ObjectEnvelope
