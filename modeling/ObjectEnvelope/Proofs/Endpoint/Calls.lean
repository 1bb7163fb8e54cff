import ObjectEnvelope.Endpoint
import ObjectEnvelope.Proofs.Graph.Fits

/-!
# Calls of an endpoint

When the calls of an endpoint succeed, in terms of the encoding, the resolution and the decoding
that they run, and which parts of the endpoint they leave alone.
-/

namespace ObjectEnvelope

open Step (bind_eq_ok_iff)

theorem LocalTypes.checkRoot_eq_ok_iff {locals : LocalTypes} {g : ObjectGraph}
    {expected : ValueType} {root : Value} :
    locals.checkRoot g expected root = .ok () ↔
      locals.rootFault? g expected root = none ∧ root ≠ .null ∧ g.Fits expected root := by
  unfold checkRoot
  cases locals.rootFault? g expected root with
  | some fault => simp
  | none =>
    by_cases hroot : root = .null
    · simp [hroot, Value.isNull]
    · rw [if_neg (mt ObjectGraph.isNull_eq_true_iff.mp hroot), ObjectGraph.checkValue_eq_ok_iff]
      simp [hroot]

namespace Endpoint

variable {settings : Settings} {s t : Endpoint}

theorem encode_eq_ok_iff {g : ObjectGraph} {root : Value} {envelope : Envelope} :
    encode settings g root s = .ok envelope t ↔
      ∃ after, Encoder.writeRoot ⟨settings, s.locals, g⟩ root (Encoding.start s.codecs) =
        .ok envelope after ∧ t = { s with codecs := after.codecs } := by
  simp only [encode, encoding, bind_eq_ok_iff, Step.get_eq_ok_iff, Step.on_eq_ok_iff]
  constructor
  · rintro ⟨_, _, ⟨rfl, rfl⟩, after, hrun, rfl⟩
    exact ⟨after, hrun, rfl⟩
  · rintro ⟨after, hrun, rfl⟩
    exact ⟨s, s, ⟨rfl, rfl⟩, after, hrun, rfl⟩

theorem encode_eq_error_iff {g : ObjectGraph} {root : Value} {e : WireError} :
    encode settings g root s = .error e t ↔
      ∃ after, Encoder.writeRoot ⟨settings, s.locals, g⟩ root (Encoding.start s.codecs) =
        .error e after ∧ t = { s with codecs := after.codecs } := by
  simp only [encode, encoding, Step.bind_eq_error_iff, Step.get_eq_ok_iff, Step.get_ne_error,
    Step.on_eq_error_iff, false_or]
  constructor
  · rintro ⟨_, _, ⟨rfl, rfl⟩, after, hrun, rfl⟩
    exact ⟨after, hrun, rfl⟩
  · rintro ⟨after, hrun, rfl⟩
    exact ⟨s, s, ⟨rfl, rfl⟩, after, hrun, rfl⟩

theorem resolve_eq_ok_iff {schema : List SchemaEntry} {types : List RuntimeType} :
    resolve settings schema s = .ok types t ↔
      ∃ after, Resolver.resolveAll ⟨schema, s.locals, settings.maxDepth⟩ ⟨s.synthesis, []⟩ =
        .ok types after ∧ t = { s with synthesis := after.synthesis } := by
  simp only [resolve, bind_eq_ok_iff, Step.get_eq_ok_iff, Step.on_eq_ok_iff]
  constructor
  · rintro ⟨_, _, ⟨rfl, rfl⟩, after, hrun, rfl⟩
    exact ⟨after, hrun, rfl⟩
  · rintro ⟨after, hrun, rfl⟩
    exact ⟨s, s, ⟨rfl, rfl⟩, after, hrun, rfl⟩

theorem resolve_eq_error_iff {schema : List SchemaEntry} {e : WireError} :
    resolve settings schema s = .error e t ↔
      ∃ after, Resolver.resolveAll ⟨schema, s.locals, settings.maxDepth⟩ ⟨s.synthesis, []⟩ =
        .error e after ∧ t = { s with synthesis := after.synthesis } := by
  simp only [resolve, Step.bind_eq_error_iff, Step.get_eq_ok_iff, Step.get_ne_error,
    Step.on_eq_error_iff, false_or]
  constructor
  · rintro ⟨_, _, ⟨rfl, rfl⟩, after, hrun, rfl⟩
    exact ⟨after, hrun, rfl⟩
  · rintro ⟨after, hrun, rfl⟩
    exact ⟨s, s, ⟨rfl, rfl⟩, after, hrun, rfl⟩

theorem decoding_eq_ok_iff {α : Type} {progress after : Progress} {step : Decode α} {a : α} :
    decoding progress step s = .ok (a, after) t ↔
      ∃ u, step ⟨progress, s.codecs⟩ = .ok a u ∧ u.toProgress = after ∧
        t = { s with codecs := u.codecs } := by
  simp only [decoding, Step.on_eq_ok_iff, bind_eq_ok_iff, Step.get_eq_ok_iff,
    Step.pure_eq_ok_iff, Prod.mk.injEq]
  constructor
  · rintro ⟨_, ⟨_, u, hrun, _, _, ⟨rfl, rfl⟩, ⟨rfl, rfl⟩, rfl⟩, rfl⟩
    exact ⟨u, hrun, rfl, rfl⟩
  · rintro ⟨u, hrun, rfl, rfl⟩
    exact ⟨u, ⟨a, u, hrun, u, u, ⟨rfl, rfl⟩, ⟨rfl, rfl⟩, rfl⟩, rfl⟩

/-- A decoding resolves the schema, reads the payload to its end and checks the root. -/
theorem decode_eq_ok_iff {envelope : Envelope} {expected : ValueType} {d : DecodedGraph} :
    decode settings envelope expected s = .ok d t ↔
      ∃ types u after, resolve settings envelope.schema s = .ok types u ∧
        Decoder.readRoot ⟨settings, types⟩ ⟨Progress.start envelope.payload, u.codecs⟩ =
          .ok d.root after ∧
        d.graph = after.graph ∧ u.locals.checkRoot d.graph expected d.root = .ok () ∧
        t = { u with codecs := after.codecs } := by
  simp only [decode, decodeFrom, bind_eq_ok_iff, Step.get_eq_ok_iff, Step.ofExcept_eq_ok_iff,
    Step.pure_eq_ok_iff]
  constructor
  · rintro ⟨types, u, htypes, ⟨root, after⟩, _, hread, _, _, ⟨rfl, rfl⟩, _, _, ⟨hcheck, rfl⟩, rfl,
      rfl⟩
    obtain ⟨w, hrun, rfl, rfl⟩ := decoding_eq_ok_iff.mp hread
    exact ⟨types, u, w, htypes, hrun, rfl, hcheck, rfl⟩
  · rintro ⟨types, u, after, htypes, hread, hgraph, hcheck, rfl⟩
    obtain ⟨graph, root⟩ := d
    obtain rfl : graph = after.graph := hgraph
    exact ⟨types, u, htypes, (root, after.toProgress), _,
      decoding_eq_ok_iff.mpr ⟨after, hread, rfl, rfl⟩, _, _, ⟨rfl, rfl⟩, ⟨⟩, _, ⟨hcheck, rfl⟩, rfl,
      rfl⟩

theorem decoding_eq_error_iff {α : Type} {progress : Progress} {step : Decode α} {e : WireError} :
    decoding progress step s = .error e t ↔
      ∃ u, step ⟨progress, s.codecs⟩ = .error e u ∧ t = { s with codecs := u.codecs } := by
  simp only [decoding, Step.on_eq_error_iff, Step.bind_eq_error_iff, Step.get_ne_error,
    Step.pure_ne_error, and_false, exists_false, or_false]
  exact exists_congr fun u => and_congr_right fun _ => eq_comm

/-- A decoding fails with the resolution of the schema, with the reading of the payload or with the
check of the root. -/
theorem decode_eq_error_iff {envelope : Envelope} {expected : ValueType} {e : WireError} :
    decode settings envelope expected s = .error e t ↔
      resolve settings envelope.schema s = .error e t ∨
      ∃ types u, resolve settings envelope.schema s = .ok types u ∧
        ((∃ after, Decoder.readRoot ⟨settings, types⟩ ⟨Progress.start envelope.payload, u.codecs⟩ =
            .error e after ∧ t = { u with codecs := after.codecs }) ∨
          ∃ root after,
            Decoder.readRoot ⟨settings, types⟩ ⟨Progress.start envelope.payload, u.codecs⟩ =
              .ok root after ∧
            u.locals.checkRoot after.graph expected root = .error e ∧
            t = { u with codecs := after.codecs }) := by
  simp only [decode, decodeFrom, Step.bind_eq_error_iff, decoding_eq_error_iff,
    Step.get_eq_ok_iff, Step.get_ne_error, Step.ofExcept_eq_error_iff, Step.ofExcept_eq_ok_iff,
    Step.pure_ne_error, and_false, exists_false, or_false, false_or]
  refine or_congr_right (exists_congr fun types => exists_congr fun u =>
    and_congr_right fun _ => or_congr_right ?_)
  constructor
  · rintro ⟨⟨root, progress⟩, _, hread, _, _, ⟨rfl, rfl⟩, hcheck, rfl⟩
    obtain ⟨after, hrun, rfl, rfl⟩ := decoding_eq_ok_iff.mp hread
    exact ⟨root, after, hrun, hcheck, rfl⟩
  · rintro ⟨root, after, hrun, hcheck, rfl⟩
    exact ⟨(root, after.toProgress), _, decoding_eq_ok_iff.mpr ⟨after, hrun, rfl, rfl⟩, _, _,
      ⟨rfl, rfl⟩, hcheck, rfl⟩

/-- A decoding fails with the resolution of the schema. -/
theorem decode_eq_error {envelope : Envelope} {expected : ValueType} {e : WireError}
    (h : resolve settings envelope.schema s = .error e t) :
    decode settings envelope expected s = .error e t :=
  decode_eq_error_iff.mpr (.inl h)

/-- A decoding fails with the reading of the payload. -/
theorem decode_eq_error_of_readRoot {envelope : Envelope} {expected : ValueType}
    {types : List RuntimeType} {u : Endpoint} {after : Decoding} {e : WireError}
    (hresolve : resolve settings envelope.schema s = .ok types u)
    (hread : Decoder.readRoot ⟨settings, types⟩ ⟨Progress.start envelope.payload, u.codecs⟩ =
      .error e after) :
    decode settings envelope expected s = .error e { u with codecs := after.codecs } :=
  decode_eq_error_iff.mpr (.inr ⟨types, u, hresolve, .inl ⟨after, hread, rfl⟩⟩)

/-- A frame that can be read is decoded as its envelope. -/
theorem decodeBytes_eq_decode {bytes : List UInt8} {envelope : Envelope} {expected : ValueType}
    (h : Envelope.ofBytes bytes = .ok envelope) :
    decodeBytes settings bytes expected s = decode settings envelope expected s := by
  unfold decodeBytes
  rw [h]
  rfl

theorem decodeBytes_eq_error {bytes : List UInt8} {expected : ValueType} {e : WireError}
    (h : Envelope.ofBytes bytes = .error e) :
    decodeBytes settings bytes expected s = .error e s := by
  unfold decodeBytes
  rw [h]
  rfl

end Endpoint

end ObjectEnvelope
