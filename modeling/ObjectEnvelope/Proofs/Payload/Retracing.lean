import ObjectEnvelope.Proofs.Payload.DecoderInvariant
import ObjectEnvelope.Proofs.Payload.EncoderWalk

/-!
# What a decoding builds

A graph that was read is one that was built, of the types of the schema only, and all its lengths
fit (`ObjectGraph.MadeOf`). A walk over it without inline types retraces the payload: it completes
the objects in the order in which they were added, and goes no deeper than the decoding went
(`Decoder.Retraces`). `readValue_retraces` carries both through a decoding.
-/

namespace ObjectEnvelope

/-- The constants in the value are of the types, and the lengths in it fit. -/
structure Value.MadeOf (types : List RuntimeType) (v : Value) : Prop where
  constant : ∀ c, v.Holds (.constant c) → c.type ∈ types
  lengthFits : ∀ w, v.Holds w → w.LengthFits

namespace Value

variable {types : List RuntimeType} {v : Value}

/-- A value that is no list is made of the types if it is by itself. -/
theorem madeOf_of_ne_list (hv : ∀ items, v ≠ .list items)
    (hconstant : ∀ c, v = .constant c → c.type ∈ types) (hlength : v.LengthFits) :
    v.MadeOf types := by
  constructor
  · intro c hc
    exact hconstant c (hc.eq_self hv).symm
  · intro w hw
    rwa [hw.eq_self hv]

theorem MadeOf.item {items : List Value} (h : MadeOf types (.list items)) (hv : v ∈ items) :
    v.MadeOf types :=
  ⟨fun c hc => h.constant c (.item hv hc), fun w hw => h.lengthFits w (.item hv hw)⟩

theorem madeOf_list {items : List Value} (hlength : items.length < 2 ^ 32)
    (hitems : ∀ v ∈ items, v.MadeOf types) : MadeOf types (.list items) := by
  constructor
  · intro c hc
    cases hc with
    | item hv hc => exact (hitems _ hv).constant c hc
  · intro w hw
    cases hw with
    | self => exact hlength
    | item hv hw => exact (hitems _ hv).lengthFits w hw

end Value

namespace ObjectGraph

variable {g between after : ObjectGraph} {types : List RuntimeType}

/-- The objects of the graph are objects of the other as they are. -/
def PartOf (g after : ObjectGraph) : Prop :=
  ∀ h o, g.get? h = some o → after.get? h = some o

theorem PartOf.refl (g : ObjectGraph) : g.PartOf g :=
  fun _ _ => id

theorem PartOf.trans (h : g.PartOf between) (h' : between.PartOf after) : g.PartOf after :=
  fun k o hget => h' k o (h k o hget)

theorem partOf_push (g : ObjectGraph) (o : Instance) : g.PartOf ⟨g.objects.push o⟩ := by
  intro h p hget
  have hlt := get?_eq_some_lt hget
  rw [get?_push, if_neg (by omega), hget]

/-- A walk is not changed by other objects. -/
theorem Walk.mono {inline : String → Bool} {depth : Nat} {written done : List Handle}
    {values : List Value} {ds : List Nat} (hpart : g.PartOf after)
    (h : g.Walk inline depth written values ds done) :
    after.Walk inline depth written values ds done := by
  induction h with
  | nil => exact .nil
  | leaf hv _ ih => exact .leaf hv ih
  | list _ _ ihitems ih => exact .list ihitems ih
  | again hmem _ ih => exact .again hmem ih
  | enter hnew hget _ _ ihfields ih => exact .enter hnew (hpart _ _ hget) ihfields ih

/-- The graph was built of objects of the types, and so were the values in their fields. -/
structure MadeOf (types : List RuntimeType) (g : ObjectGraph) : Prop where
  built : g.Built
  type : ∀ h o, g.get? h = some o → o.type ∈ types
  field : ∀ h o, g.get? h = some o → ∀ v ∈ o.fields, v.MadeOf types

theorem madeOf_empty (types : List RuntimeType) : MadeOf types .empty := by
  refine ⟨.empty, ?_, ?_⟩ <;> simp [empty, get?]

theorem MadeOf.instantiate (hg : g.MadeOf types) {type : RuntimeType} {values : List Value}
    {h : Handle} (htype : type ∈ types) (hvalues : ∀ v ∈ values, v.MadeOf types)
    (hnew : g.instantiate type values = .ok (h, after)) : after.MadeOf types := by
  have hbuilt : after.Built := .instantiate hg.built hnew
  obtain ⟨-, -, -, -, -, rfl⟩ := instantiate_eq_ok_iff.mp hnew
  have hobject : ∀ k o, (ObjectGraph.mk (g.objects.push ⟨type, values⟩)).get? k = some o →
      o = ⟨type, values⟩ ∨ g.get? k = some o := by
    intro k o hget
    rw [get?_push] at hget
    split at hget
    · exact .inl (Option.some_inj.mp hget).symm
    · exact .inr hget
  refine ⟨hbuilt, fun k o hget => ?_, fun k o hget => ?_⟩
  · rcases hobject k o hget with rfl | hget
    · exact htype
    · exact hg.type k o hget
  · rcases hobject k o hget with rfl | hget
    · exact hvalues
    · exact hg.field k o hget

/-- Whatever is met in such a graph is made of the types. -/
theorem MadeOf.of_reaches (hg : g.MadeOf types) {v w : Value} (hv : v.MadeOf types)
    (hreach : g.Reaches v w) : w.MadeOf types :=
  hreach.closed (fun _ hitems _ => hitems.item) (fun h o hget _ => hg.field h o hget) hv

theorem MadeOf.mem_of_uses (hg : g.MadeOf types) {v : Value} (hv : v.MadeOf types)
    {t : RuntimeType} (ht : g.Uses v t) : t ∈ types := by
  cases ht with
  | object hreach hget => exact hg.type _ _ hget
  | constant hreach => exact (hg.of_reaches hv hreach).constant _ (.self _)

end ObjectGraph

/-- Between the two graphs the values were read at a depth: objects were added, and a walk over the
values completes just these. -/
structure Decoder.Retraces (d : Decoder) (depth : Nat) (before : ObjectGraph) (values : List Value)
    (after : ObjectGraph) : Prop where
  made : after.MadeOf d.types
  grows : before.PartOf after
  parts : ∀ v ∈ values, v.MadeOf d.types
  walk : ∃ ds, after.Walk (fun _ => false) depth before.handles values ds after.handles ∧
    ∀ n ∈ ds, n ≤ d.settings.maxDepth

namespace Decoder

variable {d : Decoder} {depth room : Nat} {g between after : ObjectGraph} {values rest : List Value}
  {s t : Decoding} {declared : ValueType} {v : Value}

theorem Retraces.nil (hg : g.MadeOf d.types) : d.Retraces depth g [] g :=
  ⟨hg, .refl g, by simp, [], .nil, by simp⟩

theorem Retraces.append (h : d.Retraces depth g values between)
    (hrest : d.Retraces depth between rest after) :
    d.Retraces depth g (values ++ rest) after := by
  obtain ⟨ds, hwalk, hds⟩ := h.walk
  obtain ⟨es, hwalk', hes⟩ := hrest.walk
  refine ⟨hrest.made, h.grows.trans hrest.grows, ?_, ds ++ es, ?_, ?_⟩
  · rw [List.forall_mem_append]
    exact ⟨h.parts, hrest.parts⟩
  · exact (hwalk.mono hrest.grows).append hwalk'
  · rw [List.forall_mem_append]
    exact ⟨hds, hes⟩

theorem Retraces.leaf (hg : g.MadeOf d.types) (hdepth : depth ≤ d.settings.maxDepth)
    (hv : v.IsLeaf) (hmade : v.MadeOf d.types) : d.Retraces depth g [v] g := by
  refine ⟨hg, .refl g, by simpa using hmade, [depth], .leaf hv .nil, ?_⟩
  simpa using hdepth

/-- An object with a number has been walked over. -/
theorem Retraces.again (hg : g.MadeOf d.types) (hdepth : depth ≤ d.settings.maxDepth) {h : Handle}
    (hlt : h.index < g.size) : d.Retraces depth g [.object h] g := by
  have hmade : (Value.object h).MadeOf d.types :=
    Value.madeOf_of_ne_list nofun nofun trivial
  refine ⟨hg, .refl g, by simpa using hmade, [depth], ?_, by simpa using hdepth⟩
  exact .again (ObjectGraph.mem_handles_iff.mpr hlt) .nil

theorem Retraces.list {items : List Value} (h : d.Retraces (depth + 1) g items after)
    (hdepth : depth ≤ d.settings.maxDepth) (hlength : items.length < 2 ^ 32) :
    d.Retraces depth g [.list items] after := by
  obtain ⟨ds, hwalk, hds⟩ := h.walk
  refine ⟨h.made, h.grows, ?_, depth :: ds ++ [], .list hwalk .nil, ?_⟩
  · rw [List.forall_mem_singleton]
    exact Value.madeOf_list hlength h.parts
  · simpa using ⟨hdepth, hds⟩

/-- An object is added behind what its fields need, and so it is walked into. -/
theorem Retraces.enter (h : d.Retraces (depth + 1) g values between)
    (hdepth : depth ≤ d.settings.maxDepth) {type : RuntimeType} (htype : type ∈ d.types)
    {k : Handle} (hnew : between.instantiate type values = .ok (k, after)) :
    d.Retraces depth g [.object k] after := by
  have hmade := h.made.instantiate htype h.parts hnew
  obtain ⟨ds, hwalk, hds⟩ := h.walk
  obtain ⟨-, -, -, -, rfl, rfl⟩ := ObjectGraph.instantiate_eq_ok_iff.mp hnew
  have hpart := ObjectGraph.partOf_push between ⟨type, values⟩
  have hget : (ObjectGraph.mk (between.objects.push ⟨type, values⟩)).get? ⟨between.size⟩ =
      some ⟨type, values⟩ := by
    rw [ObjectGraph.get?_push, if_pos rfl]
  have hfresh : (⟨between.size⟩ : Handle) ∉ g.handles := by
    intro hmem
    have hlt := ObjectGraph.mem_handles_iff.mp hmem
    obtain ⟨o, ho⟩ := Option.isSome_iff_exists.mp (ObjectGraph.get?_isSome_iff.mpr hlt)
    exact absurd (ObjectGraph.get?_eq_some_lt (h.grows _ o ho)) (Nat.lt_irrefl _)
  refine ⟨hmade, h.grows.trans hpart, ?_, depth :: ds ++ [],
    .enter hfresh hget (hwalk.mono hpart) ?_, ?_⟩
  · rw [List.forall_mem_singleton]
    exact Value.madeOf_of_ne_list nofun nofun trivial
  · rw [ObjectGraph.handles_push]
    exact .nil
  · simpa using ⟨hdepth, hds⟩

/-- Values that are read one after the other are walked over one after the other. -/
theorem each_retraces {declareds : List ValueType}
    (hitem : ∀ declared s v t, d.readValue room declared s = .ok v t →
      s.Sound d.settings.maxListLength → s.graph.MadeOf d.types →
      d.Retraces depth s.graph [v] t.graph)
    (h : Step.each (d.readValue room) declareds s = .ok values t)
    (hs : s.Sound d.settings.maxListLength) (hmade : s.graph.MadeOf d.types) :
    d.Retraces depth s.graph values t.graph := by
  induction declareds generalizing s values with
  | nil =>
    obtain ⟨rfl, rfl⟩ := Step.each_nil_eq_ok_iff.mp h
    exact .nil hmade
  | cons declared rest ih =>
    obtain ⟨v, u, vs, hv, hvs, rfl⟩ := Step.each_cons_eq_ok_iff.mp h
    have hfirst := hitem declared s v u hv hs hmade
    exact hfirst.append (ih hvs (readValue_keeps hv hs).sound hfirst.made)

theorem readObject_retraces
    (hitem : ∀ declared s v t, d.readValue room declared s = .ok v t →
      s.Sound d.settings.maxListLength → s.graph.MadeOf d.types →
      d.Retraces (depth + 1) s.graph [v] t.graph)
    (hdepth : depth ≤ d.settings.maxDepth)
    (h : d.readObject (d.readValue room) declared s = .ok v t)
    (hs : s.Sound d.settings.maxListLength) (hmade : s.graph.MadeOf d.types) :
    d.Retraces depth s.graph [v] t.graph := by
  obtain ⟨type, u, htype, -, hslots⟩ := readObject_eq_ok_iff.mp h
  obtain ⟨index, r, -, hget, -, rfl⟩ := readType_eq_ok_iff.mp htype
  obtain ⟨r', values, w, k, -, hvalues, hnew, rfl⟩ := readSlots_eq_ok_iff.mp hslots
  obtain ⟨graph, hgraph, rfl⟩ := Decode.instantiate_eq_ok_iff.mp hnew
  have hfields := each_retraces hitem hvalues ⟨hs.layered, hs.numbered⟩ hmade
  exact hfields.enter hdepth (List.mem_of_getElem? hget) hgraph

/-- **What was read is retraced by a walk.** The induction is on the depth that is left. -/
theorem readValue_retraces (hdepth : depth + room = d.settings.maxDepth + 1)
    (h : d.readValue room declared s = .ok v t) (hs : s.Sound d.settings.maxListLength)
    (hmade : s.graph.MadeOf d.types) : d.Retraces depth s.graph [v] t.graph := by
  induction room generalizing depth declared s v t with
  | zero => exact absurd h Step.throw_ne_ok
  | succ room ih =>
    have hle : depth ≤ d.settings.maxDepth := by omega
    have hitem : ∀ declared s v t, d.readValue room declared s = .ok v t →
        s.Sound d.settings.maxListLength → s.graph.MadeOf d.types →
        d.Retraces (depth + 1) s.graph [v] t.graph :=
      fun _ _ _ _ => ih (by omega)
    obtain ⟨tag, u, htag, hbody⟩ := readValue_succ_eq_ok_iff.mp h
    obtain ⟨code, r, -, -, rfl⟩ := Decode.tag_eq_ok_iff.mp htag
    have hu : Decoding.Sound d.settings.maxListLength { s with reader := r } :=
      ⟨hs.layered, hs.numbered⟩
    cases tag with
    | null =>
      obtain ⟨rfl, rfl⟩ := hbody
      exact .leaf hmade hle .null (Value.madeOf_of_ne_list nofun nofun trivial)
    | primitive kind =>
      obtain ⟨p, hp, rfl⟩ := hbody
      obtain ⟨r', hread, rfl⟩ := Decode.read_eq_ok_iff.mp hp
      obtain ⟨bytes, -, -, hbytes⟩ := Primitive.takes_read kind _ _ _ hread
      have hlength : p.LengthFits := Primitive.exists_encode_iff.mp ⟨bytes, hbytes⟩
      exact .leaf hmade hle (.primitive p) (Value.madeOf_of_ne_list nofun nofun hlength)
    | list =>
      obtain ⟨element, count, r', items, -, hcount, -, hitems, rfl⟩ := readList_eq_ok_iff.mp hbody
      obtain ⟨bytes, -, -, hbytes⟩ := Read.takes_length 1 _ _ _ hcount
      have hlength : items.length = count := by
        rw [Step.length_of_each hitems, List.length_replicate]
      have hlist := each_retraces hitem hitems ⟨hs.layered, hs.numbered⟩ hmade
      exact hlist.list hle (hlength ▸ (Write.length_eq_ok_iff.mp hbytes).1)
    | constant =>
      obtain ⟨type, u, htype, -, hordinal⟩ := readConstant_eq_ok_iff.mp hbody
      obtain ⟨index, r', -, hget, -, rfl⟩ := readType_eq_ok_iff.mp htype
      obtain ⟨ordinal, r'', c, -, -, rfl, -, rfl, rfl⟩ := readOrdinal_eq_ok_iff.mp hordinal
      refine .leaf hmade hle (.constant c) (Value.madeOf_of_ne_list nofun ?_ trivial)
      rintro _ ⟨rfl⟩
      exact List.mem_of_getElem? hget
    | object =>
      obtain ⟨k, w, hobject, rfl, rfl⟩ := numbering_readObject_eq_ok_iff.mp hbody
      have hretraces := readObject_retraces hitem hle hobject hu hmade
      exact hretraces
    | inlineObject =>
      have hretraces := readObject_retraces hitem hle hbody hu hmade
      exact hretraces
    | backReference =>
      obtain ⟨k, hk, rfl⟩ := hbody
      obtain ⟨id, r', -, hget, rfl⟩ := Decode.referent_eq_ok_iff.mp hk
      exact .again hmade hle (hs.numbered k (Array.mem_of_getElem? hget))

/-- A graph that was read from the start is walked over from its root. -/
theorem readRoot_retraces {payload : List UInt8} {codecs : CodecCache}
    (h : d.readRoot ⟨Progress.start payload, codecs⟩ = .ok v t) :
    d.Retraces 0 .empty [v] t.graph := by
  have hroom : 0 + d.settings.roomAt 0 = d.settings.maxDepth + 1 := by
    unfold Settings.roomAt
    omega
  exact readValue_retraces hroom (readRoot_eq_ok_iff.mp h).1 (sound_start _ _ _)
    (ObjectGraph.madeOf_empty _)

end Decoder

end ObjectEnvelope
