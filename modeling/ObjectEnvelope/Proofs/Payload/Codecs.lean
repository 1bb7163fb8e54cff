import ObjectEnvelope.Payload.Decoder
import ObjectEnvelope.Payload.Encoder

/-!
# Codecs of a payload

Every body is written and read by a codec that the cache provides. What the cache holds does not
show: the codec is one of the very type that was asked for, so a step that goes on with the type and
the form of the codec goes on with the type and its own form (`CodecCache.on_provide_bind`). The
functions of the encoder and the decoder that ask for codecs are restated in these terms.
-/

namespace ObjectEnvelope

namespace CodecCache

/-- The cache after a request, which leaves it as it is when it fails. -/
def requested (cache : CodecCache) (t : RuntimeType) (declared : ValueType) : CodecCache :=
  match cache.request t declared with
  | .ok (_, after) => after
  | .error _ => cache

/-- Requests the codec of a type where `declared` stands, and goes by the type for the form of its
bodies. -/
def requestForm (t : RuntimeType) (declared : ValueType) : Step CodecCache BodyForm := do
  let form ← Step.ofExcept (t.bodyForm declared)
  modify (·.requested t declared)
  return form

/-- The codec that is provided has the type and the form that were asked for, whatever is kept. -/
theorem provide_cases (t : RuntimeType) (declared : ValueType) (cache : CodecCache) :
    (∃ codec after, provide t declared cache = .ok codec after ∧
      requestForm t declared cache = .ok codec.form after ∧ codec.type = t) ∨
    ∃ e, provide t declared cache = .error e cache ∧
      requestForm t declared cache = .error e cache := by
  unfold provide requestForm
  cases hrequest : cache.request t declared with
  | ok answer =>
    obtain ⟨codec, after⟩ := answer
    have hrequested : cache.requested t declared = after := by rw [requested, hrequest]
    rw [form_of_request hrequest]
    refine .inl ⟨codec, after, rfl, ?_, type_of_request hrequest⟩
    rw [← hrequested]
    rfl
  | error e =>
    rw [request_eq_error_iff.mp hrequest]
    exact .inr ⟨e, rfl, rfl⟩

/-- To go on with the type and the form of a codec is to go on with the type and its own form. -/
theorem on_provide_bind {σ β : Type} (part : σ → CodecCache) (replace : σ → CodecCache → σ)
    (t : RuntimeType) (declared : ValueType) (next : RuntimeType → BodyForm → Step σ β) :
    (Step.on part replace (provide t declared) >>= fun c => next c.type c.form) =
      (Step.on part replace (requestForm t declared) >>= fun form => next t form) := by
  funext s
  show EStateM.bind _ _ s = EStateM.bind _ _ s
  unfold EStateM.bind Step.on
  rcases provide_cases t declared (part s) with ⟨codec, after, hprovide, hform, rfl⟩ |
    ⟨e, hprovide, hform⟩
  · rw [hprovide, hform]
  · rw [hprovide, hform]

end CodecCache

/-- The form of the bodies of a type where `declared` stands. -/
def Encode.form (t : RuntimeType) (declared : ValueType) : Encode BodyForm :=
  Step.on Encoding.codecs (fun s codecs => { s with codecs }) (CodecCache.requestForm t declared)

/-- The form of the bodies of a type where anything may stand. -/
def Decode.form (t : RuntimeType) : Decode BodyForm :=
  Step.on Decoding.codecs (fun s codecs => { s with codecs }) (CodecCache.requestForm t .any)

namespace Encoder

variable (e : Encoder) (slot : ValueType → Value → Encode (List UInt8)) (path : List Handle)
  (declared : ValueType)

theorem writeConstant_eq (c : Constant) :
    e.writeConstant declared c = (do
      let form ← Encode.form c.type declared
      Encode.describe e.locals c.type
      let body ← e.writeBody (fun _ _ => return []) c.type form (.constant c)
      return Tag.constant.code :: body) :=
  CodecCache.on_provide_bind _ _ c.type declared fun type form => do
    Encode.describe e.locals type
    let body ← e.writeBody (fun _ _ => return []) type form (.constant c)
    return Tag.constant.code :: body

theorem writeObject_eq {h : Handle} {o : Instance} (hget : e.graph.get? h = some o) :
    e.writeObject slot path declared h = (do
      let form ← Encode.form o.type declared
      Encode.describe e.locals o.type
      match (← get).numbered.idxOf? h with
      | some id => return Tag.backReference.code :: LittleEndian.ofNat 4 id
      | none => e.writeNew slot path form o.type h) := by
  simp only [writeObject, hget]
  exact CodecCache.on_provide_bind _ _ o.type declared fun type form => do
    Encode.describe e.locals type
    match (← get).numbered.idxOf? h with
    | some id => return Tag.backReference.code :: LittleEndian.ofNat 4 id
    | none => e.writeNew slot path form type h

theorem writeObject_of_get?_eq_none {h : Handle} (hget : e.graph.get? h = none) :
    e.writeObject slot path declared h = throw (.notSerializable (.dangling h)) := by
  simp only [writeObject, hget]

end Encoder

namespace Decoder

variable (d : Decoder) (slot : ValueType → Decode Value) (declared : ValueType)

/-- The body of a value of a type, read by a codec of the type. -/
theorem codec_readBody (type : RuntimeType) :
    (do
      let codec ← Decode.codec type
      readBody slot codec.type codec.form) = (do readBody slot type (← Decode.form type)) :=
  CodecCache.on_provide_bind _ _ type .any (readBody slot)

theorem readConstant_eq :
    d.readConstant slot declared = (do
      let type ← d.readType declared
      if type.kind ≠ .enumeration then
        throw (.invalidEnvelope (.constantOfKind type.kind type.name))
      readBody slot type (← Decode.form type)) := by
  unfold readConstant
  simp only [codec_readBody]

theorem readObject_eq :
    d.readObject slot declared = (do
      let type ← d.readType declared
      if !type.isInstantiable then
        throw (.invalidEnvelope (.objectOfKind type.kind type.name))
      readBody slot type (← Decode.form type)) := by
  unfold readObject
  simp only [codec_readBody]

end Decoder

end ObjectEnvelope
