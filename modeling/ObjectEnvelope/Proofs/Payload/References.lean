import ObjectEnvelope.Proofs.Graph.Covers
import ObjectEnvelope.Proofs.Payload.DecoderSteps

/-!
# Objects without a number

Whatever bytes a payload holds, an object that gets no number is referred to from one place: it is
returned once, where it was read, and no back-reference names it. While values are read, that place
is in an object that is complete or among the values that are pending, on their way into an object
or a list (`Decoding.Single`); `readValue_single` carries this through a decoding.
-/

namespace ObjectEnvelope

/-- An object without a number is referred to from one place, in an object or in a pending value. -/
def Decoding.Single (pending : List Handle) (s : Decoding) : Prop :=
  ∀ h, h ∉ s.numbered →
    (s.graph.references ++ pending).count h = if h.index < s.graph.size then 1 else 0

namespace Decoder

variable {d : Decoder} {s t : Decoding} {pending : List Handle} {declared : ValueType} {v : Value}

theorem single_start (payload : List UInt8) (codecs : CodecCache) :
    Decoding.Single [] ⟨Progress.start payload, codecs⟩ :=
  fun _ _ => rfl

/-- What changes neither the objects nor their numbers changes no reference. -/
theorem single_of_eq (hs : s.Single pending) (hgraph : t.graph = s.graph)
    (hnumbered : t.numbered = s.numbered) : t.Single pending := by
  unfold Decoding.Single
  rw [hgraph, hnumbered]
  exact hs

/-- Another reference to an object with a number counts for nothing. -/
theorem single_append_numbered {h : Handle} (hs : s.Single pending) (hh : h ∈ s.numbered) :
    s.Single (pending ++ [h]) := by
  intro k hk
  have hne : h ≠ k := fun heq => hk (heq ▸ hh)
  rw [← List.append_assoc, List.count_append, List.count_singleton, if_neg (by simpa using hne)]
  exact hs k hk

/-- When an object is complete, its values are no longer pending; it is, instead. -/
theorem single_instantiate {type : RuntimeType} {values : List Value} {h : Handle}
    (hs : s.Single (pending ++ Value.handlesOfAll values))
    (hnew : Decode.instantiate type values s = .ok h t) : t.Single (pending ++ [h]) := by
  obtain ⟨graph, hgraph, rfl⟩ := Decode.instantiate_eq_ok_iff.mp hnew
  obtain ⟨-, -, -, -, rfl, rfl⟩ := ObjectGraph.instantiate_eq_ok_iff.mp hgraph
  intro k hk
  have hbefore := hs k hk
  have hsize : (ObjectGraph.mk (s.graph.objects.push ⟨type, values⟩)).size = s.graph.size + 1 :=
    Array.size_push _
  rw [ObjectGraph.references_push, hsize]
  simp only [List.count_append, List.count_singleton] at hbefore ⊢
  by_cases hlast : k.index = s.graph.size
  · obtain rfl : (⟨s.graph.size⟩ : Handle) = k := by rw [← hlast]
    rw [if_neg (Nat.lt_irrefl _)] at hbefore
    rw [if_pos (Nat.lt_succ_self _), if_pos (beq_self_eq_true _)]
    omega
  · have hne : (⟨s.graph.size⟩ : Handle) ≠ k := fun heq => hlast (by rw [← heq])
    rw [if_neg (by simpa using hne)]
    split at hbefore
    · rw [if_pos (by omega)]
      omega
    · rw [if_neg (by omega)]
      omega

/-- Values that are read one after the other become pending one after the other. -/
theorem each_single {item : ValueType → Decode Value}
    (hitem : ∀ declared pending s v t, item declared s = .ok v t → s.Single pending →
      t.Single (pending ++ v.handles))
    {declareds : List ValueType} {values : List Value}
    (h : Step.each item declareds s = .ok values t) (hs : s.Single pending) :
    t.Single (pending ++ Value.handlesOfAll values) := by
  induction declareds generalizing s pending values with
  | nil =>
    obtain ⟨rfl, rfl⟩ := Step.each_nil_eq_ok_iff.mp h
    rw [Value.handlesOfAll, List.append_nil]
    exact hs
  | cons declared rest ih =>
    obtain ⟨v, u, vs, hv, hvs, rfl⟩ := Step.each_cons_eq_ok_iff.mp h
    rw [Value.handlesOfAll, ← List.append_assoc]
    exact ih hvs (hitem declared pending s v u hv hs)

theorem readObject_single {slot : ValueType → Decode Value}
    (hslot : ∀ declared pending s v t, slot declared s = .ok v t → s.Single pending →
      t.Single (pending ++ v.handles))
    (h : d.readObject slot declared s = .ok v t) (hs : s.Single pending) :
    t.Single (pending ++ v.handles) := by
  obtain ⟨type, u, htype, -, hslots⟩ := readObject_eq_ok_iff.mp h
  obtain ⟨index, r, -, -, -, rfl⟩ := readType_eq_ok_iff.mp htype
  obtain ⟨r', values, w, k, -, hvalues, hnew, rfl⟩ := readSlots_eq_ok_iff.mp hslots
  exact single_instantiate (each_single hslot hvalues (single_of_eq hs rfl rfl)) hnew

/-- **One place for each object without a number.** Whatever the payload, the types and the declared
type are, a value that was read is pending with all that it refers to. -/
theorem readValue_single {room : Nat} (h : d.readValue room declared s = .ok v t)
    (hs : s.Single pending) : t.Single (pending ++ v.handles) := by
  induction room generalizing declared s v t pending with
  | zero => exact absurd h Step.throw_ne_ok
  | succ room ih =>
    have hitem : ∀ declared pending s v t, d.readValue room declared s = .ok v t →
        s.Single pending → t.Single (pending ++ v.handles) := fun _ _ _ _ _ => ih
    have hnone : ∀ {u : Decoding}, u.Single pending → u.Single (pending ++ []) :=
      fun hu => (List.append_nil pending).symm ▸ hu
    obtain ⟨tag, u, htag, hbody⟩ := readValue_succ_eq_ok_iff.mp h
    obtain ⟨code, r, -, -, rfl⟩ := Decode.tag_eq_ok_iff.mp htag
    replace hs : Decoding.Single pending { s with reader := r } := single_of_eq hs rfl rfl
    cases tag with
    | null =>
      obtain ⟨rfl, rfl⟩ := hbody
      exact hnone hs
    | primitive kind =>
      obtain ⟨p, hp, rfl⟩ := hbody
      obtain ⟨r', -, rfl⟩ := Decode.read_eq_ok_iff.mp hp
      exact hnone (single_of_eq hs rfl rfl)
    | list =>
      obtain ⟨element, count, r', items, -, -, -, hitems, rfl⟩ := readList_eq_ok_iff.mp hbody
      exact each_single hitem hitems (single_of_eq hs rfl rfl)
    | constant =>
      obtain ⟨type, u, htype, -, hordinal⟩ := readConstant_eq_ok_iff.mp hbody
      obtain ⟨index, r', -, -, -, rfl⟩ := readType_eq_ok_iff.mp htype
      obtain ⟨ordinal, r'', c, -, -, -, -, rfl, rfl⟩ := readOrdinal_eq_ok_iff.mp hordinal
      exact hnone (single_of_eq hs rfl rfl)
    | object =>
      obtain ⟨k, w, hobject, rfl, rfl⟩ := numbering_readObject_eq_ok_iff.mp hbody
      have hw := readObject_single hitem hobject hs
      exact fun j hj => hw j fun hold => hj (Array.mem_push.mpr (.inl hold))
    | inlineObject => exact readObject_single hitem hbody hs
    | backReference =>
      obtain ⟨k, hk, rfl⟩ := hbody
      obtain ⟨id, r', -, hget, rfl⟩ := Decode.referent_eq_ok_iff.mp hk
      exact single_append_numbered (single_of_eq hs rfl rfl) (Array.mem_of_getElem? hget)

/-- In the end, an object that has no number is referred to from one place. -/
theorem placesOf_of_readRoot {payload : List UInt8} {codecs : CodecCache} {root : Value}
    (h : d.readRoot ⟨Progress.start payload, codecs⟩ = .ok root t) {k : Handle}
    (hk : (t.graph.get? k).isSome) (hnumbered : k ∉ t.numbered) :
    t.graph.placesOf root k = 1 := by
  have hsingle := readValue_single (readRoot_eq_ok_iff.mp h).1 (single_start payload codecs)
  rw [ObjectGraph.placesOf, ← List.nil_append root.handles, hsingle k hnumbered,
    if_pos (ObjectGraph.get?_isSome_iff.mp hk)]

end Decoder

end ObjectEnvelope
