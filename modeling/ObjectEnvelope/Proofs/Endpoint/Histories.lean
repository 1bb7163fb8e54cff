import ObjectEnvelope.Endpoint
import ObjectEnvelope.Proofs.Types.SynthesisSteps

/-!
# Histories of endpoints

Which endpoints calls lead to (`Endpoint.Served`): any calls, with any arguments, whether they
succeed or fail. All that is left of a history are the types that it brought about, and each of them
is found by the digest of its descriptor (`Served.keyed`). A call either registers a type or is a
use (`Endpoint.IsUse`), and what a use preserves hangs on the syntheses in it alone
(`IsUse.preserves`).
-/

namespace ObjectEnvelope

theorem LocalTypes.preserves_register (d : Descriptor) :
    (register d).Preserves (Reached Set.univ) := by
  intro locals h
  have hafter : Reached Set.univ ((register d).after locals) := h.register fun _ _ => trivial
  exact ⟨fun t u hrun => Step.after_of_ok hrun ▸ hafter,
    fun e u hrun => Step.after_of_error hrun ▸ hafter⟩

/-! ## Resolutions -/

namespace Resolver

section

variable {inv : SynthesisCache → Prop}
  (hinv : ∀ isLocal d, (SynthesisCache.synthesize isLocal d).Preserves inv) (r : Resolver)

include hinv

theorem preserves_typeOf (d : Descriptor) :
    (r.typeOf d).Preserves fun s => inv s.synthesis := by
  unfold typeOf
  split
  · exact .pure _
  · exact (hinv _ d).on (fun _ h => h) fun _ _ _ h => h

theorem preserves_build (p : PlacedEntry) : (r.build p).Preserves fun s => inv s.synthesis :=
  .bind .get fun _ => .bind (.ofExcept _) fun d => .bind (preserves_typeOf hinv r d) fun _ =>
    .bind (.modify fun _ h => h) fun _ => .pure _

theorem preserves_settle {deeper : PlacedEntry → Resolve RuntimeType}
    (hdeeper : ∀ p, (deeper p).Preserves fun s => inv s.synthesis) (path : List Nat)
    (p : PlacedEntry) : (r.settle deeper path p).Preserves fun s => inv s.synthesis := by
  refine .bind (.forM (fun need => .bind .get fun s => ?_) _) fun _ => preserves_build hinv r p
  split
  · exact .guard fun _ => (hdeeper need).discard
  · exact .pure _

theorem preserves_visit (root : String) (room : Nat) (path : List Nat) (p : PlacedEntry) :
    (r.visit root room path p).Preserves fun s => inv s.synthesis := by
  induction room generalizing path p with
  | zero => exact preserves_settle hinv r (fun _ => .throw _) path p
  | succ room ih => exact preserves_settle hinv r (fun q => ih (p.place :: path) q) path p

/-- What syntheses preserve of the cache, resolutions preserve. -/
theorem preserves_resolveAll : r.resolveAll.Preserves fun s => inv s.synthesis := by
  refine .each (fun p => .bind .get fun s => ?_) _
  split
  · exact .pure _
  · exact preserves_visit hinv r _ _ _ _

end

end Resolver

/-! ## Calls -/

namespace Endpoint

variable {s : Endpoint}

/-- The calls that an endpoint serves. -/
inductive IsCall : {α : Type} → Step Endpoint α → Prop
  | register (d : Descriptor) : IsCall (register d)
  | synthesize (isLocal : Descriptor → Bool) (d : Descriptor) : IsCall (synthesize isLocal d)
  | codec (t : RuntimeType) (declared : ValueType) : IsCall (codec t declared)
  | encode (settings : Settings) (g : ObjectGraph) (root : Value) : IsCall (encode settings g root)
  | encodeAfterBody (settings : Settings) (g : ObjectGraph) (c : Codec) (value : Value)
      (depth : Nat) (root : Value) : IsCall (encodeAfterBody settings g c value depth root)
  | decode (settings : Settings) (envelope : Envelope) (expected : ValueType) :
      IsCall (decode settings envelope expected)
  | decodeBytes (settings : Settings) (bytes : List UInt8) (expected : ValueType) :
      IsCall (decodeBytes settings bytes expected)
  | decodeFrom (settings : Settings) (schema : List SchemaEntry) (expected : ValueType)
      (progress : Progress) : IsCall (decodeFrom settings schema expected progress)
  | readBody (settings : Settings) (c : Codec) (depth : Nat) (payload : List UInt8) :
      IsCall (readBody settings c depth payload)

/-- The calls that register no type. -/
inductive IsUse : {α : Type} → Step Endpoint α → Prop
  | synthesize (isLocal : Descriptor → Bool) (d : Descriptor) : IsUse (synthesize isLocal d)
  | codec (t : RuntimeType) (declared : ValueType) : IsUse (codec t declared)
  | encode (settings : Settings) (g : ObjectGraph) (root : Value) : IsUse (encode settings g root)
  | encodeAfterBody (settings : Settings) (g : ObjectGraph) (c : Codec) (value : Value)
      (depth : Nat) (root : Value) : IsUse (encodeAfterBody settings g c value depth root)
  | decode (settings : Settings) (envelope : Envelope) (expected : ValueType) :
      IsUse (decode settings envelope expected)
  | decodeBytes (settings : Settings) (bytes : List UInt8) (expected : ValueType) :
      IsUse (decodeBytes settings bytes expected)
  | decodeFrom (settings : Settings) (schema : List SchemaEntry) (expected : ValueType)
      (progress : Progress) : IsUse (decodeFrom settings schema expected progress)
  | readBody (settings : Settings) (c : Codec) (depth : Nat) (payload : List UInt8) :
      IsUse (readBody settings c depth payload)

/-- A call registers a type or is a use. -/
theorem IsCall.elim {P : {α : Type} → Step Endpoint α → Prop} {α : Type} {step : Step Endpoint α}
    (h : IsCall step) (hregister : ∀ d, P (Endpoint.register d))
    (huse : ∀ {β : Type} {step : Step Endpoint β}, IsUse step → P step) : P step := by
  cases h with
  | register d => exact hregister d
  | synthesize isLocal d => exact huse (.synthesize isLocal d)
  | codec t declared => exact huse (.codec t declared)
  | encode settings g root => exact huse (.encode settings g root)
  | encodeAfterBody settings g c value depth root =>
    exact huse (.encodeAfterBody settings g c value depth root)
  | decode settings envelope expected => exact huse (.decode settings envelope expected)
  | decodeBytes settings bytes expected => exact huse (.decodeBytes settings bytes expected)
  | decodeFrom settings schema expected progress =>
    exact huse (.decodeFrom settings schema expected progress)
  | readBody settings c depth payload => exact huse (.readBody settings c depth payload)

/-- The endpoints that calls lead to, failed calls included. One endpoint may use the registered
types of one and the synthesized types of another, which serve calls of their own. -/
inductive Served : Endpoint → Prop
  | empty (home : Nat) : Served (.empty home)
  | call {α : Type} {step : Step Endpoint α} {s : Endpoint} (hstep : IsCall step) (h : Served s) :
      Served (step.after s)
  | share {s t : Endpoint} (h : Served s) (h' : Served t) :
      Served { s with synthesis := t.synthesis }

/-- Every type is found by the digest of its descriptor. -/
structure Keyed (s : Endpoint) : Prop where
  locals : s.locals.Reached Set.univ
  synthesis : s.synthesis.Keyed

section

variable {α : Type} {step : Step Endpoint α} {inv : Endpoint → Prop}

theorem preserves_encoding (hcodecs : ∀ s codecs, inv s → inv { s with codecs })
    (settings : Settings) (g : ObjectGraph) (step : Encoder → Encode α) :
    (encoding settings g step).Preserves inv :=
  .bind .get fun _ => .on_any fun s after h => hcodecs s after.codecs h

theorem preserves_decoding (hcodecs : ∀ s codecs, inv s → inv { s with codecs })
    (progress : Progress) (step : Decode α) : (decoding progress step).Preserves inv :=
  .on_any fun s after h => hcodecs s after.codecs h

theorem preserves_decodeFrom (hcodecs : ∀ s codecs, inv s → inv { s with codecs })
    {settings : Settings} {schema : List SchemaEntry}
    (hresolve : (resolve settings schema).Preserves inv) (expected : ValueType)
    (progress : Progress) : (decodeFrom settings schema expected progress).Preserves inv :=
  .bind hresolve fun _ => .bind (preserves_decoding hcodecs progress _) fun _ =>
    .bind .get fun _ => .bind (.ofExcept _) fun _ => .pure _

theorem preserves_codec (hcodecs : ∀ s codecs, inv s → inv { s with codecs }) (t : RuntimeType)
    (declared : ValueType) : (codec t declared).Preserves inv := by
  refine fun s h => ⟨fun c u hrun => ?_, fun e u hrun => ?_⟩
  · simp only [codec, Step.bind_eq_ok_iff, Step.get_eq_ok_iff, Step.ofExcept_eq_ok_iff,
      Step.set_eq_ok_iff, Step.pure_eq_ok_iff] at hrun
    obtain ⟨_, _, ⟨rfl, rfl⟩, _, _, ⟨-, rfl⟩, _, _, rfl, -, rfl⟩ := hrun
    exact hcodecs _ _ h
  · simp only [codec, Step.bind_eq_error_iff, Step.get_ne_error, Step.get_eq_ok_iff,
      Step.ofExcept_eq_error_iff, Step.set_ne_error, Step.pure_ne_error, and_false, exists_false,
      false_or, or_false] at hrun
    obtain ⟨_, _, ⟨rfl, rfl⟩, -, rfl⟩ := hrun
    exact h

/-- A use preserves what the codecs have no part in, if syntheses preserve it. -/
theorem IsUse.preserves (h : IsUse step) (hcodecs : ∀ s codecs, inv s → inv { s with codecs })
    (hsynthesize : ∀ isLocal d, (Endpoint.synthesize isLocal d).Preserves inv)
    (hresolve : ∀ settings schema, (resolve settings schema).Preserves inv) :
    step.Preserves inv := by
  cases h with
  | synthesize isLocal d => exact hsynthesize isLocal d
  | codec t declared => exact preserves_codec hcodecs t declared
  | encode settings g root => exact preserves_encoding hcodecs settings g _
  | encodeAfterBody settings g c value depth root =>
    exact preserves_encoding hcodecs settings g _
  | decode settings envelope expected =>
    exact preserves_decodeFrom hcodecs (hresolve settings _) expected _
  | decodeBytes settings bytes expected =>
    exact .bind (.ofExcept _) fun envelope =>
      preserves_decodeFrom hcodecs (hresolve settings _) expected _
  | decodeFrom settings schema expected progress =>
    exact preserves_decodeFrom hcodecs (hresolve settings schema) expected progress
  | readBody settings c depth payload => exact preserves_decoding hcodecs _ _

/-- A use preserves of the cache what syntheses preserve. -/
theorem IsUse.preserves_synthesis {inv : SynthesisCache → Prop}
    (hinv : ∀ isLocal d, (SynthesisCache.synthesize isLocal d).Preserves inv) (h : IsUse step) :
    step.Preserves fun s => inv s.synthesis := by
  refine h.preserves (fun _ _ h => h) (fun isLocal d => ?_) fun settings schema => ?_
  · exact (hinv isLocal d).on (fun _ h => h) fun _ _ _ h => h
  · exact .bind .get fun s =>
      (Resolver.preserves_resolveAll hinv ⟨schema, s.locals, settings.maxDepth⟩).on (fun _ h => h)
        fun _ _ _ h => h

end

/-! ### The digests of the types -/

theorem preserves_resolve (settings : Settings) (schema : List SchemaEntry) :
    (resolve settings schema).Preserves Keyed :=
  .bind .get fun s => (Resolver.preserves_resolveAll SynthesisCache.preserves_synthesize
    ⟨schema, s.locals, settings.maxDepth⟩).on (fun _ h => h.synthesis)
      fun _ _ h h' => ⟨h.locals, h'⟩

/-- One call leaves the types keyed. -/
theorem IsCall.preserves {α : Type} {step : Step Endpoint α} (h : IsCall step) :
    step.Preserves Keyed := by
  refine h.elim (P := fun step => step.Preserves Keyed) (fun d => ?_) fun hstep => ?_
  · exact (LocalTypes.preserves_register d).on (fun _ h => h.locals)
      fun _ _ h h' => ⟨h', h.synthesis⟩
  · refine hstep.preserves (fun _ _ h => ⟨h.locals, h.synthesis⟩) (fun isLocal d => ?_)
      preserves_resolve
    exact (SynthesisCache.preserves_synthesize isLocal d).on (fun _ h => h.synthesis)
      fun _ _ h h' => ⟨h.locals, h'⟩

/-- **Histories.** Whatever calls an endpoint has served, its types are found by the digests of
their descriptors. -/
theorem Served.keyed (h : Served s) : s.Keyed := by
  induction h with
  | empty home => exact ⟨.empty home, rfl, fun _ ht => absurd ht List.not_mem_nil⟩
  | call hstep _ ih => exact hstep.preserves.after ih
  | share _ _ ih ih' => exact ⟨ih.locals, ih'.synthesis⟩

end Endpoint

end ObjectEnvelope
