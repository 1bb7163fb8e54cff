import ObjectEnvelope.Proofs.Endpoint.DecodedGraphs
import ObjectEnvelope.Proofs.Envelope.CanonicalFrames
import ObjectEnvelope.Proofs.Envelope.Failures
import ObjectEnvelope.Proofs.Payload.DecoderFailures

/-!
# Failures of a call that decodes

That a value has no encoding is a failure of encoding. A call that decodes does not end with it
(`Endpoint.decode_blames_input`), though it runs code that can: whatever the bytes, the schema and
the endpoint are, a handle names an object, a type that is asked for a codec or an instance has
them, and no name is bound. The one exception takes a payload of more than four gigabytes.
-/

namespace ObjectEnvelope

theorem LocalTypes.checkRoot_fails {locals : LocalTypes} {g : ObjectGraph} {limit : Nat}
    {expected : ValueType} {root : Value} {e : WireError} (hroot : root.Bounded g.size limit)
    (h : locals.checkRoot g expected root = .error e) : e.BlamesInput := by
  unfold checkRoot at h
  split at h
  · cases h
    exact WireError.mismatched _
  · split at h
    · cases h
      exact WireError.mismatched _
    · exact ObjectGraph.checkValue_fails hroot h

namespace Endpoint

variable {settings : Settings} {s t : Endpoint}

theorem resolve_fails {schema : List SchemaEntry} {e : WireError}
    (h : resolve settings schema s = .error e t) : e.BlamesInput := by
  obtain ⟨after, hrun, -⟩ := resolve_eq_error_iff.mp h
  exact Resolver.resolveAll_fails _ _ _ _ hrun

/-- The payload is given up when as many objects are read as handles can name. -/
def FillsGraph (settings : Settings) (envelope : Envelope) (s : Endpoint) : Prop :=
  ∃ types u e after, resolve settings envelope.schema s = .ok types u ∧
    Decoder.readRoot ⟨settings, types⟩ ⟨Progress.start envelope.payload, u.codecs⟩ =
      .error e after ∧
    ObjectGraph.capacity ≤ after.graph.size ∧ after.graph.size ≤ envelope.payload.length

theorem decode_fails {envelope : Envelope} {expected : ValueType} {e : WireError}
    (h : decode settings envelope expected s = .error e t) :
    e.BlamesInput ∨ (e = .notSerializable .graphFull ∧ FillsGraph settings envelope s) := by
  rcases decode_eq_error_iff.mp h with h | ⟨types, u, hresolve, ⟨after, hread, -⟩ |
    ⟨root, after, hread, hcheck, -⟩⟩
  · exact .inl (resolve_fails h)
  · rcases Decoder.readRoot_fails _ _ e after hread with hblames | ⟨rfl, hfull, hle⟩
    · exact .inl hblames
    · exact .inr ⟨rfl, types, u, _, after, hresolve, hread, hfull, hle⟩
  · obtain ⟨hvalue, -⟩ := Decoder.readRoot_eq_ok_iff.mp hread
    have hkeeps := Decoder.readValue_keeps hvalue (Decoder.sound_start _ _ _)
    exact .inl (LocalTypes.checkRoot_fails hkeeps.bounded hcheck)

/-- **No decoding fails as an encoding.** Whatever is decoded at whatever endpoint, the failure is
never that a value has no encoding. Only where a payload is given as such, and so can be longer than
a frame holds, a graph can come to hold all objects that handles can name. -/
theorem decode_blames_input (settings : Settings) (s : Endpoint) (expected : ValueType) :
    (∀ bytes e t, decodeBytes settings bytes expected s = .error e t →
      e.kind ≠ .notSerializable) ∧
    ∀ envelope e t, decode settings envelope expected s = .error e t →
      e.kind ≠ .notSerializable ∨
        (e = .notSerializable .graphFull ∧ FillsGraph settings envelope s) := by
  constructor
  · intro bytes e t h
    cases hbytes : Envelope.ofBytes bytes with
    | error f =>
      rw [decodeBytes_eq_error hbytes] at h
      cases h
      exact Envelope.ofBytes_fails hbytes
    | ok envelope =>
      rw [decodeBytes_eq_decode hbytes] at h
      rcases decode_fails h with hblames | ⟨-, types, u, f, after, -, -, hfull, hle⟩
      · exact hblames
      · have hlt : envelope.payload.length < ObjectGraph.capacity :=
          Envelope.length_payload_lt hbytes
        exact absurd (Nat.le_trans hfull hle) (Nat.not_le.mpr hlt)
  · intro envelope e t h
    exact decode_fails h

/-- A pair that refers to itself where it has no number yet. -/
def loopedEnvelope : Envelope where
  payload := [0x12, 0, 0, 0, 0, 2, 0, 0, 0] ++ [0x14, 0, 0, 0, 0] ++ [0x00]
  schema := [pairEntry]

/-- The frame of the looped pair. -/
def loopedFrame : List UInt8 :=
  loopedEnvelope.toBytes.toOption.getD []

/-- The endpoint without types refuses the looped pair, in a frame and by itself, for its reference
to an object without a number. -/
theorem decode_blames_input_loopedEnvelope :
    (∃ e t, decodeBytes .standard loopedFrame .any (.empty 0) = .error e t ∧
      e.kind ≠ .notSerializable) ∧
    ∃ e t, decode .standard loopedEnvelope .any (.empty 0) = .error e t ∧
      (e.kind ≠ .notSerializable ∨
        (e = .notSerializable .graphFull ∧ FillsGraph .standard loopedEnvelope (.empty 0))) := by
  obtain ⟨hframe, henvelope⟩ := decode_blames_input .standard (.empty 0) .any
  obtain ⟨e, t, hrun, -⟩ := Step.exists_of_failure?
    (show Step.failure? (decodeBytes .standard loopedFrame .any) (.empty 0) =
      some .referenceIntegrityViolation by decide +kernel)
  obtain ⟨f, u, hrun', -⟩ := Step.exists_of_failure?
    (show Step.failure? (decode .standard loopedEnvelope .any) (.empty 0) =
      some .referenceIntegrityViolation by decide +kernel)
  exact ⟨⟨e, t, hrun, hframe _ e t hrun⟩, f, u, hrun', henvelope _ f u hrun'⟩

end Endpoint

end ObjectEnvelope
