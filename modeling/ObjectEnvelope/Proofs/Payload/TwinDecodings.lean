import ObjectEnvelope.Proofs.Payload.Codecs
import ObjectEnvelope.Proofs.Graph.Twins

/-!
# Twin decodings

Two decoders whose types are twins, place by place, read one payload in lockstep. At every step they
stand at the same byte, have numbered the same handles and hold twin graphs; what is kept of codecs
does not matter. So both read twin values, or both fail with errors of one kind (`Twins.readRoot`).
-/

namespace ObjectEnvelope

open Step (Together)

/-- Two decodings at the same byte, with twin graphs and the same numbers. -/
structure Decoding.Twins (s t : Decoding) : Prop where
  reader : s.reader = t.reader
  graph : s.graph.Twins t.graph
  numbered : s.numbered = t.numbered

namespace Decode

variable {α β γ δ : Type} {R : α → β → Prop} {S : γ → δ → Prop} {step : Decode α}
  {step' : Decode β} {t u : RuntimeType}

/-- From twin decodings, both steps lead to twin decodings with related results, or both fail
alike. -/
def Alike (R : α → β → Prop) (step : Decode α) (step' : Decode β) : Prop :=
  ∀ s t, Decoding.Twins s t → Together step s step' t fun a u b v => R a b ∧ u.Twins v

theorem Alike.pure {a : α} {b : β} (h : R a b) : Alike R (pure a) (pure b) :=
  fun _ _ hst => .pure ⟨h, hst⟩

theorem Alike.throw {e f : WireError} (h : e.kind = f.kind) :
    Alike R (throw e : Decode α) (throw f : Decode β) :=
  fun _ _ _ => .throw h

theorem Alike.bind {next : α → Decode γ} {next' : β → Decode δ} (h : Alike R step step')
    (hnext : ∀ a b, R a b → Alike S (next a) (next' b)) :
    Alike S (step >>= next) (step' >>= next') :=
  fun s t hst => (h s t hst).bind fun a u b v huv => hnext a b huv.1 u v huv.2

theorem Alike.guard {c c' : Prop} [Decidable c] [Decidable c'] {e f : WireError}
    {next : PUnit → Decode α} {next' : PUnit → Decode β} (hc : c ↔ c') (hef : e.kind = f.kind)
    (hnext : Alike R (next ⟨⟩) (next' ⟨⟩)) :
    Alike R (if c then (MonadExcept.throw e : Decode PUnit) >>= next else next ⟨⟩)
      (if c' then (MonadExcept.throw f : Decode PUnit) >>= next' else next' ⟨⟩) :=
  fun s t hst => .guard hc hef fun _ => hnext s t hst

/-! ## Steps on the state -/

theorem alike_read (step : Read α) : Alike (· = ·) (read step) (read step) := by
  intro s t hst
  refine .on ?_
  rw [hst.reader]
  refine (Together.self step t.reader).mono ?_
  rintro a r b _ ⟨rfl, rfl⟩
  exact ⟨rfl, rfl, hst.graph, hst.numbered⟩

theorem alike_form (ht : t.Twin u) : Alike (· = ·) (Decode.form t) (Decode.form u) := by
  intro s s' hss
  have hform : Outcome.Together (t.bodyForm .any) (u.bodyForm .any) (· = ·) := by
    unfold RuntimeType.bodyForm
    rw [ht.accepts, ht.kind]
    split
    · split
      · exact .ok rfl
      · exact .error rfl
    · exact .error rfl
  refine .on (Together.bind (.ofExcept hform) ?_)
  rintro form _ _ _ ⟨rfl, rfl, rfl⟩
  refine .bind (.modify trivial : Together _ _ _ _ fun _ _ _ _ => True) fun _ _ _ _ _ => ?_
  exact .pure ⟨rfl, hss.reader, hss.graph, hss.numbered⟩

theorem alike_instantiate (ht : t.Twin u) {vs ws : List Value}
    (hvs : List.Forall₂ Value.Twin vs ws) :
    Alike (· = ·) (instantiate t vs) (instantiate u ws) := by
  intro s s' hss
  refine .get_bind (.bind (.ofExcept (hss.graph.instantiate ht hvs)) ?_)
  rintro ⟨h, graph⟩ _ ⟨h', graph'⟩ _ ⟨⟨rfl, hgraph⟩, rfl, rfl⟩
  refine .set_bind (.pure ⟨rfl, hss.reader, hgraph, hss.numbered⟩)

theorem alike_number (h : Handle) : Alike (fun _ _ => True) (number h) (number h) := by
  intro s t hst
  refine .modify ⟨trivial, hst.reader, hst.graph, ?_⟩
  rw [hst.numbered]

theorem alike_referent : Alike (· = ·) referent referent := by
  refine (alike_read (Read.number 4)).bind ?_
  rintro id _ rfl s t hst
  refine .get_bind ?_
  rw [hst.numbered]
  split
  · exact .pure ⟨rfl, hst⟩
  · exact .throw rfl

theorem alike_tag : Alike (· = ·) Decode.tag Decode.tag := by
  intro s t hst
  refine .get_bind ((alike_read Read.byte s t hst).bind ?_)
  rintro code u _ v ⟨rfl, huv⟩
  split
  · exact .pure ⟨rfl, huv⟩
  · exact .throw rfl

/-- The results of a step for each item. -/
theorem Alike.each {step : γ → Decode α} {step' : γ → Decode β}
    (h : ∀ c, Alike R (step c) (step' c)) (items : List γ) :
    Alike (List.Forall₂ R) (Step.each step items) (Step.each step' items) :=
  fun _ _ hst => .each (fun c _ s t hst => h c s t hst) hst

theorem Alike.times (h : Alike R step step') (count : Nat) :
    Alike (List.Forall₂ R) (Step.times step count) (Step.times step' count) :=
  fun _ _ hst => .times count h hst

end Decode

/-! ## Decoders -/

/-- Decoders with the same limits, for which the places in the schema stand for twins. -/
structure Decoder.Twins (d e : Decoder) : Prop where
  maxDepth : d.settings.maxDepth = e.settings.maxDepth
  maxListLength : d.settings.maxListLength = e.settings.maxListLength
  types : List.Forall₂ RuntimeType.Twin d.types e.types

namespace Decoder

open Decode (Alike)

variable {d e : Decoder} {t u : RuntimeType} {slot slot' : ValueType → Decode Value}

/-- What lists that are related item by item have at a position. -/
theorem rel_getElem? {α β : Type} {R : α → β → Prop} {xs : List α} {ys : List β}
    (h : List.Forall₂ R xs ys) (i : Nat) : Option.Rel R xs[i]? ys[i]? := by
  induction h generalizing i with
  | nil => exact .none
  | cons hxy _ ih =>
    cases i with
    | zero => exact .some hxy
    | succ i => exact ih i

theorem Twins.readType (h : d.Twins e) (declared : ValueType) :
    Alike RuntimeType.Twin (d.readType declared) (e.readType declared) := by
  refine (Decode.alike_read (Read.number 4)).bind ?_
  rintro index _ rfl
  have hindex := rel_getElem? h.types index
  generalize d.types[index]? = a, e.types[index]? = b at hindex
  cases hindex with
  | none => exact .throw rfl
  | @some t u htu =>
    show Alike _ (if t.accepts declared = true then _ else _)
      (if u.accepts declared = true then _ else _)
    rw [htu.accepts]
    split
    · exact .pure htu
    · exact .throw rfl

theorem alike_readOrdinal (ht : t.Twin u) : Alike Value.Twin (readOrdinal t) (readOrdinal u) := by
  refine (Decode.alike_read (Read.number 4)).bind ?_
  rintro ordinal _ rfl
  have hconstant : Outcome.Together (Constant.ofOrdinal t ordinal) (Constant.ofOrdinal u ordinal)
      fun c c' => c.type.Twin c'.type ∧ c.ordinal = c'.ordinal := by
    unfold Constant.ofOrdinal
    rw [ht.kind]
    have hlt : ordinal < t.constants.length ↔ ordinal < u.constants.length := by rw [ht.constants]
    split
    · by_cases h : ordinal < u.constants.length
      · rw [dif_pos (hlt.mpr h), dif_pos h]
        exact .ok ⟨ht, rfl⟩
      · rw [dif_neg (mt hlt.mp h), dif_neg h]
        exact .error rfl
    · exact .error rfl
  rcases hconstant with ⟨c, c', hc, hc', htype, hordinal⟩ | ⟨f, f', hf, hf', -⟩
  · rw [hc, hc']
    exact .pure (.constant htype hordinal)
  · rw [hf, hf']
    exact .throw rfl

theorem alike_readSlots (hslot : ∀ declared, Alike Value.Twin (slot declared) (slot' declared))
    (ht : t.Twin u) : Alike Value.Twin (readSlots slot t) (readSlots slot' u) := by
  refine (Decode.alike_read (Read.number 4)).bind ?_
  rintro count _ rfl
  rw [ht.slots]
  refine .guard .rfl rfl ?_
  refine (Alike.each (fun f : Field => hslot f.type) _).bind fun values values' hvalues => ?_
  refine (Decode.alike_instantiate ht hvalues).bind ?_
  rintro h _ rfl
  exact .pure (.object rfl)

theorem alike_readBody (hslot : ∀ declared, Alike Value.Twin (slot declared) (slot' declared))
    (ht : t.Twin u) (form : BodyForm) :
    Alike Value.Twin (readBody slot t form) (readBody slot' u form) := by
  cases form with
  | slots => exact alike_readSlots hslot ht
  | ordinal => exact alike_readOrdinal ht

theorem Twins.readConstant (h : d.Twins e)
    (hslot : ∀ declared, Alike Value.Twin (slot declared) (slot' declared)) (declared : ValueType) :
    Alike Value.Twin (d.readConstant slot declared) (e.readConstant slot' declared) := by
  rw [readConstant_eq, readConstant_eq]
  refine (h.readType declared).bind fun t u ht => ?_
  rw [ht.kind]
  refine .guard .rfl rfl ?_
  refine (Decode.alike_form ht).bind ?_
  rintro form _ rfl
  exact alike_readBody hslot ht form

theorem Twins.readObject (h : d.Twins e)
    (hslot : ∀ declared, Alike Value.Twin (slot declared) (slot' declared)) (declared : ValueType) :
    Alike Value.Twin (d.readObject slot declared) (e.readObject slot' declared) := by
  rw [readObject_eq, readObject_eq]
  refine (h.readType declared).bind fun t u ht => ?_
  have hinstantiable : t.isInstantiable = u.isInstantiable := by
    rw [RuntimeType.isInstantiable, RuntimeType.isInstantiable, ht.kind]
  rw [hinstantiable]
  refine .guard .rfl rfl ?_
  refine (Decode.alike_form ht).bind ?_
  rintro form _ rfl
  exact alike_readBody hslot ht form

theorem Twins.readList (h : d.Twins e)
    (hitem : ∀ declared, Alike Value.Twin (slot declared) (slot' declared)) (declared : ValueType) :
    Alike Value.Twin (d.readList slot declared) (e.readList slot' declared) := by
  unfold Decoder.readList
  cases declared.element? with
  | none => exact .throw rfl
  | some element =>
    refine (Decode.alike_read (Read.length 1)).bind ?_
    rintro count _ rfl
    refine .guard (h.maxListLength ▸ .rfl) rfl ?_
    exact ((hitem element).times count).bind fun _ _ hitems => .pure (.list hitems)

theorem alike_numbering {step step' : Decode Value} (h : Alike Value.Twin step step') :
    Alike Value.Twin (numbering step) (numbering step') := by
  refine h.bind fun v w hv => ?_
  cases hv with
  | object hk =>
    subst hk
    exact (Decode.alike_number _).bind fun _ _ _ => .pure (.object rfl)
  | null => exact .pure .null
  | primitive p => exact .pure (.primitive p)
  | list hitems => exact .pure (.list hitems)
  | constant htype hordinal => exact .pure (.constant htype hordinal)

/-- Values nested in each other, the outermost first. -/
theorem Twins.readValue (h : d.Twins e) (room : Nat) (declared : ValueType) :
    Alike Value.Twin (d.readValue room declared) (e.readValue room declared) := by
  induction room generalizing declared with
  | zero => exact .throw rfl
  | succ room ih =>
    refine Decode.alike_tag.bind ?_
    rintro tag _ rfl
    cases tag with
    | null => exact .pure .null
    | primitive kind =>
      refine (Decode.alike_read _).bind ?_
      rintro p _ rfl
      exact .pure (.primitive p)
    | list => exact h.readList ih declared
    | constant => exact h.readConstant ih declared
    | object => exact alike_numbering (h.readObject ih declared)
    | inlineObject => exact h.readObject ih declared
    | backReference =>
      refine Decode.alike_referent.bind ?_
      rintro k _ rfl
      exact .pure (.object rfl)

/-- **Twin decodings.** Twin decoders read twin roots of a payload, or both fail with errors of one
kind. -/
theorem Twins.readRoot (h : d.Twins e) : Alike Value.Twin d.readRoot e.readRoot := by
  have hroom : d.settings.roomAt 0 = e.settings.roomAt 0 := by
    rw [Settings.roomAt, Settings.roomAt, h.maxDepth]
  unfold Decoder.readRoot
  rw [hroom]
  refine (h.readValue _ .any).bind fun v w hv => ?_
  intro s t hst
  refine .get_bind ?_
  rw [hst.reader]
  exact .guard .rfl rfl fun _ => .pure ⟨hv, hst⟩

end Decoder

end ObjectEnvelope
