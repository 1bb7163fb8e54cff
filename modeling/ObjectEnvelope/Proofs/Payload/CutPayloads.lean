import ObjectEnvelope.Proofs.Bytes.Cuts
import ObjectEnvelope.Proofs.Payload.DecoderSteps

/-!
# Payloads that were cut or extended

No length precedes the root of a payload, and yet a decoder that has read a payload does not read a
root from fewer of its bytes, or from more. It goes on as before up to the cut, with the same graph
and the same numbers, and the step that goes beyond is refused as malformed, whatever it reads. If
no step does, bytes are left at the end (`Decoder.readRoot_fails_of_comparable`).
-/

namespace ObjectEnvelope

/-- Two decodings that have built the same, and whose readers part where one of them ends. What is
kept of codecs does not matter. -/
structure Decoding.Forks (tail tail' : List UInt8) (s t : Decoding) : Prop where
  reader : s.reader.Forks tail tail' t.reader
  graph : s.graph = t.graph
  numbered : s.numbered = t.numbered

/-- The step does in the second of two such decodings what it does in the first, or it is refused as
malformed. -/
abbrev Decode.Tracks (tail tail' : List UInt8) {α : Type} (step : Decode α) : Prop :=
  Step.Tracks (Decoding.Forks tail tail') WireError.Malformed step

variable {tail tail' : List UInt8}

namespace Decode

/-! ## Steps on the state -/

theorem tracks_read {α : Type} {step : Read α}
    (h : Step.Tracks (Reader.Forks tail tail') WireError.Malformed step) :
    Tracks tail tail' (read step) :=
  h.on (fun _ _ hst => hst.reader) fun _ _ _ _ hst huv => ⟨huv, hst.graph, hst.numbered⟩

theorem tracks_form (type : RuntimeType) : Tracks tail tail' (Decode.form type) := by
  intro s t hst form u hrun
  obtain ⟨hform, rfl⟩ := form_eq_ok_iff.mp hrun
  exact .inl ⟨form, _, form_eq_ok_iff.mpr ⟨hform, rfl⟩, rfl, hst.reader, hst.graph, hst.numbered⟩

theorem tracks_instantiate (type : RuntimeType) (values : List Value) :
    Tracks tail tail' (instantiate type values) := by
  intro s t hst h u hrun
  obtain ⟨graph, hnew, rfl⟩ := instantiate_eq_ok_iff.mp hrun
  rw [hst.graph] at hnew
  exact .inl ⟨h, _, instantiate_eq_ok_iff.mpr ⟨graph, hnew, rfl⟩, rfl, hst.reader, rfl,
    hst.numbered⟩

theorem tracks_number (h : Handle) : Tracks tail tail' (number h) :=
  .modify fun _ _ hst => ⟨hst.reader, hst.graph, hst.numbered ▸ rfl⟩

section

variable (h : tail = [] ∨ tail' = [])

include h

theorem tracks_referent : Tracks tail tail' referent := by
  refine .bind (tracks_read (Read.tracks_number h 4)) fun id => ?_
  refine .get_bind fun s t hst k u hrun => ?_
  rw [hst.numbered] at hrun
  cases hfound : t.numbered[id]? with
  | none => exact absurd (by simpa only [hfound] using hrun) Step.throw_ne_ok
  | some found =>
    simp only [hfound] at hrun
    obtain ⟨rfl, rfl⟩ := Step.pure_eq_ok_iff.mp hrun
    exact Step.yields_pure ⟨rfl, hst⟩

theorem tracks_tag : Tracks tail tail' Decode.tag := by
  refine .get_bind fun s t hst tag u hrun => ?_
  obtain ⟨code, between, hcode, hrun⟩ := Step.bind_eq_ok_iff.mp hrun
  refine (tracks_read (Read.tracks_byte h) s t hst code between hcode).bind ?_
  rintro code v ⟨rfl, hbetween⟩
  cases hfound : Tag.ofCode? code with
  | none => exact absurd (by simpa only [hfound] using hrun) Step.throw_ne_ok
  | some found =>
    simp only [hfound] at hrun
    obtain ⟨rfl, rfl⟩ := Step.pure_eq_ok_iff.mp hrun
    exact Step.yields_pure ⟨rfl, hbetween⟩

end

end Decode

/-! ## Decoders -/

namespace Decoder

open Decode (Tracks)

section

variable (h : tail = [] ∨ tail' = []) (d : Decoder) {slot : ValueType → Decode Value}

include h

theorem tracks_readType (declared : ValueType) : Tracks tail tail' (d.readType declared) := by
  refine .bind (Decode.tracks_read (Read.tracks_number h 4)) fun index => ?_
  split
  · exact .throw _
  · split
    · exact .pure _
    · exact .throw _

theorem tracks_readOrdinal (type : RuntimeType) : Tracks tail tail' (readOrdinal type) := by
  refine .bind (Decode.tracks_read (Read.tracks_number h 4)) fun ordinal => ?_
  split
  · exact .pure _
  · exact .throw _

theorem tracks_readSlots (hslot : ∀ declared, Tracks tail tail' (slot declared))
    (type : RuntimeType) : Tracks tail tail' (readSlots slot type) :=
  .bind (Decode.tracks_read (Read.tracks_number h 4)) fun _ => .guard <|
    .bind (.each (fun f : Field => hslot f.type) _) fun values =>
    .bind (Decode.tracks_instantiate type values) fun _ => .pure _

theorem tracks_readBody (hslot : ∀ declared, Tracks tail tail' (slot declared))
    (type : RuntimeType) (form : BodyForm) : Tracks tail tail' (readBody slot type form) := by
  cases form with
  | slots => exact tracks_readSlots h hslot type
  | ordinal => exact tracks_readOrdinal h type

theorem tracks_readConstant (hslot : ∀ declared, Tracks tail tail' (slot declared))
    (declared : ValueType) : Tracks tail tail' (d.readConstant slot declared) := by
  rw [readConstant_eq]
  exact .bind (tracks_readType h d declared) fun type => .guard <|
    .bind (Decode.tracks_form type) fun form => tracks_readBody h hslot type form

theorem tracks_readObject (hslot : ∀ declared, Tracks tail tail' (slot declared))
    (declared : ValueType) : Tracks tail tail' (d.readObject slot declared) := by
  rw [readObject_eq]
  exact .bind (tracks_readType h d declared) fun type => .guard <|
    .bind (Decode.tracks_form type) fun form => tracks_readBody h hslot type form

theorem tracks_readList (hitem : ∀ declared, Tracks tail tail' (slot declared))
    (declared : ValueType) : Tracks tail tail' (d.readList slot declared) := by
  unfold readList
  cases declared.element? with
  | none => exact .throw _
  | some element =>
    exact .bind (Decode.tracks_read (Read.tracks_length h 1)) fun count => .guard <|
      .bind (.times (hitem element) count) fun _ => .pure _

omit h in
theorem tracks_numbering {step : Decode Value} (hstep : Tracks tail tail' step) :
    Tracks tail tail' (numbering step) := by
  refine .bind hstep fun v => ?_
  split
  · exact .bind (Decode.tracks_number _) fun _ => .pure _
  · exact .pure _

/-- A value, by what its tag announces, and in it the values that are nested in it. -/
theorem tracks_readValue (room : Nat) (declared : ValueType) :
    Tracks tail tail' (d.readValue room declared) := by
  induction room generalizing declared with
  | zero => exact .throw _
  | succ room ih =>
    refine .bind (Decode.tracks_tag h) fun tag => ?_
    cases tag with
    | null => exact .pure _
    | primitive kind =>
      exact .bind (Decode.tracks_read (Primitive.tracks_read h kind)) fun _ => .pure _
    | list => exact tracks_readList h d ih declared
    | constant => exact tracks_readConstant h d ih declared
    | object => exact tracks_numbering (tracks_readObject h d ih declared)
    | inlineObject => exact tracks_readObject h d ih declared
    | backReference => exact .bind (Decode.tracks_referent h) fun _ => .pure _

end

/-- Of the byte strings that begin a payload or begin with it, a root is read from none but the
payload itself: every other is refused as malformed. -/
theorem readRoot_fails_of_comparable {d : Decoder} {payload other : List UInt8}
    {codecs : CodecCache} (codecs' : CodecCache) {root : Value} {u : Decoding}
    (hread : d.readRoot ⟨Progress.start payload, codecs⟩ = .ok root u)
    (hcomparable : other <+: payload ∨ payload <+: other) (hne : other ≠ payload) :
    ∃ e v, d.readRoot ⟨Progress.start other, codecs'⟩ = .error e v ∧ e.Malformed := by
  obtain ⟨tail, tail', htails, hfork⟩ := Reader.exists_forks_ofBytes hcomparable
  have hstart : Decoding.Forks tail tail' ⟨Progress.start payload, codecs⟩
      ⟨Progress.start other, codecs'⟩ := ⟨hfork, rfl, rfl⟩
  obtain ⟨hvalue, hrest⟩ := readRoot_eq_ok_iff.mp hread
  rcases tracks_readValue htails d _ .any _ _ hstart root u hvalue with
    ⟨_, v, hvalue', rfl, hend⟩ | ⟨e, v, hvalue', he⟩
  · -- the same root was read, and only the whole payload ends there
    have hleft : v.reader.rest ≠ [] :=
      fun hempty => hne (hfork.eq_of_exhausted hend.reader hrest hempty)
    have hmore : (!v.reader.isExhausted) = true := by simpa [Reader.isExhausted] using hleft
    exact ⟨_, v, Step.bind_eq_error_iff.mpr (.inr ⟨_, v, hvalue', Step.bind_eq_error_iff.mpr
      (.inr ⟨v, v, rfl, Step.guard_eq_error_iff.mpr (.inl ⟨hmore, rfl, rfl⟩)⟩)⟩),
      WireError.malformed _⟩
  · exact ⟨e, v, Step.bind_eq_error_iff.mpr (.inl hvalue'), he⟩

end Decoder

end ObjectEnvelope
