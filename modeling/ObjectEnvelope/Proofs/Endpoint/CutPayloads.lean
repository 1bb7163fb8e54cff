import ObjectEnvelope.Proofs.Endpoint.RepeatedEncodings
import ObjectEnvelope.Proofs.Endpoint.RoundTrips
import ObjectEnvelope.Proofs.Envelope.RepeatedResolutions
import ObjectEnvelope.Proofs.Payload.CutPayloads

/-!
# Envelopes with a payload that was cut or extended

An envelope that was decoded is not decoded any more when its payload loses bytes at the end, or has
bytes after it (`Endpoint.decode_fails_of_comparable`). The schema goes on to be resolved to the
same types, since what a resolution has found stays found, whatever the endpoint is used for
(`Endpoint.resolve_again`); so it is the payload that is refused.
-/

namespace ObjectEnvelope

namespace Endpoint

variable {settings : Settings} {s t u : Endpoint}

/-- Uses add to the synthesized types and take none away. -/
theorem LeadsTo.grows (h : s.LeadsTo t) : s.synthesis.Grows Set.univ t.synthesis := by
  induction h with
  | refl => exact .refl _
  | use hstep _ ih =>
    exact (hstep.preserves_synthesis SynthesisCache.preserves_grows).after ih

/-- A schema that was resolved is resolved to the same types after any uses, and adds none. -/
theorem resolve_again {schema : List SchemaEntry} {types : List RuntimeType}
    (h : resolve settings schema s = .ok types t) (hlocals : u.locals = s.locals)
    (hgrows : t.synthesis.Grows Set.univ u.synthesis) :
    resolve settings schema u = .ok types u := by
  obtain ⟨after, hrun, rfl⟩ := resolve_eq_ok_iff.mp h
  have hagain := (Resolver.repeats_resolveAll _ _ _ _ hrun).2 u.synthesis hgrows
  refine resolve_eq_ok_iff.mpr ⟨{ after with synthesis := u.synthesis }, ?_, rfl⟩
  rw [hlocals]
  exact hagain

/-- **Payloads delimit themselves.** Let an endpoint decode an envelope. With a payload that begins
the one of the envelope or begins with it, and is another, the endpoint refuses the envelope as
none: from where it was, and after the decoding and whatever uses follow it. -/
theorem decode_fails_of_comparable {envelope : Envelope} {expected expected' : ValueType}
    {d : DecodedGraph} {payload : List UInt8}
    (h : decode settings envelope expected s = .ok d t) (hu : u = s ∨ t.LeadsTo u)
    (hcomparable : payload <+: envelope.payload ∨ envelope.payload <+: payload)
    (hne : payload ≠ envelope.payload) :
    ∃ e v, decode settings { envelope with payload } expected' u = .error e v ∧
      e.kind = .invalidEnvelope := by
  obtain ⟨types, w, after, hresolve, hread, -, -, rfl⟩ := decode_eq_ok_iff.mp h
  obtain ⟨w', hresolve'⟩ : ∃ w', resolve settings envelope.schema u = .ok types w' := by
    rcases hu with rfl | hleads
    · exact ⟨w, hresolve⟩
    · obtain ⟨_, -, rfl⟩ := resolve_eq_ok_iff.mp hresolve
      exact ⟨u, resolve_again hresolve hleads.locals_eq hleads.grows⟩
  obtain ⟨e, v, hrefused, he⟩ :=
    Decoder.readRoot_fails_of_comparable w'.codecs hread hcomparable hne
  exact ⟨e, _, decode_eq_error_of_readRoot hresolve' hrefused, he⟩

/-- The two cells are encoded, and decoded elsewhere; another call fails there. Then no part of the
payload is decoded, and the payload with a byte behind it is not, with the same schema. -/
theorem decode_fails_of_comparable_cells :
    (∃ t, encode .standard cells cellsRoot ⟨cellLocals, .empty 0, .empty⟩ = .ok cellsEnvelope t) ∧
    ∃ d t, decode .standard cellsEnvelope .any (.empty 1) = .ok d t ∧
      (∀ n < cellsEnvelope.payload.length, ∃ e v,
        decode .standard { cellsEnvelope with payload := cellsEnvelope.payload.take n } .any
          ((decodeBytes .standard [] .any).after t) = .error e v ∧ e.kind = .invalidEnvelope) ∧
      ∃ e v, decode .standard { cellsEnvelope with payload := cellsEnvelope.payload ++ [0] } .any
        ((decodeBytes .standard [] .any).after t) = .error e v ∧ e.kind = .invalidEnvelope := by
  obtain ⟨d, t, hrun⟩ := Step.exists_of_succeeds
    (show Step.succeeds (decode .standard cellsEnvelope .any) (.empty 1) = true by decide +kernel)
  have hlater : t.LeadsTo ((decodeBytes .standard [] .any).after t) :=
    .use (.decodeBytes _ _ _) .refl
  refine ⟨encode_cells, d, t, hrun, fun n hn => ?_, ?_⟩
  · have hcut : cellsEnvelope.payload.take n ≠ cellsEnvelope.payload :=
      mt (List.take_eq_self_iff _).mp (Nat.not_le.mpr hn)
    exact decode_fails_of_comparable hrun (.inr hlater) (.inl (List.take_prefix n _)) hcut
  · exact decode_fails_of_comparable hrun (.inr hlater) (.inr (List.prefix_append _ [0])) (by simp)

end Endpoint

end ObjectEnvelope
