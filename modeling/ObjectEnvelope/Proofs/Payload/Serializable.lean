import ObjectEnvelope.Proofs.Payload.EncoderWalk
import ObjectEnvelope.Proofs.Schema.Layouts

/-!
# Which graphs can be encoded

`ObjectGraph.Serializable` are the conditions on a graph and its root under which it has an
encoding, stated without the encoder. That they are needed follows from the walk of a successful
encoding (`Encoder.Follows.serializable`); that they are enough is proved by induction on the walk
(`Encoder.exists_writeEach`): no value on it is refused, because objects and fields fit, and no
object is met inside itself.
-/

namespace ObjectEnvelope

/-- The conditions under which the graph below a root can be encoded. -/
structure ObjectGraph.Serializable (settings : Settings) (locals : LocalTypes) (g : ObjectGraph)
    (root : Value) : Prop where
  root_ne_null : root ≠ .null
  /-- Every handle that is met names an object. -/
  present : ∀ h, g.Reaches root (.object h) → (g.get? h).isSome = true
  /-- No object is met inside itself. -/
  acyclic : ∀ h, g.Reaches root (.object h) → ¬ g.OnCycle h
  /-- No value lies deeper than the limit. -/
  shallow : ∀ ds after, g.Walk settings.isInline 0 [] [root] ds after →
    ∀ depth ∈ ds, depth ≤ settings.maxDepth
  unambiguous : locals.Unambiguous (g.Uses root)
  lengthFits : ∀ v, g.Reaches root v → v.LengthFits
  /-- The objects that get a number are not too many. -/
  objects : {h | g.Reaches root (.object h) ∧
    ∃ o, g.get? h = some o ∧ settings.isInline o.type.name = false}.encard ≤ Encoding.capacity
  types : (locals.collectedNames (g.Uses root)).encard ≤ SchemaTable.capacity

namespace Encoder

variable {e : Encoder} {root : Value} {s t : Encoding} {room depth : Nat} {path : List Handle}

/-! ## The conditions are needed -/

/-- A graph that was built has no more objects than numbers. -/
theorem encard_objects_le {g : ObjectGraph} (hgraph : g.WellFormed) (numbered : Set Handle)
    (hpresent : ∀ h ∈ numbered, (g.get? h).isSome = true) :
    numbered.encard ≤ Encoding.capacity := by
  have hinjective : Set.InjOn Handle.index numbered := by
    rintro ⟨i⟩ - ⟨j⟩ - (rfl : i = j)
    rfl
  have hsubset : Handle.index '' numbered ⊆ (Finset.range g.size : Set Nat) := by
    rintro _ ⟨h, hh, rfl⟩
    rw [Finset.coe_range, Set.mem_Iio]
    exact ObjectGraph.get?_isSome_iff.mp (hpresent h hh)
  calc numbered.encard = (Handle.index '' numbered).encard := hinjective.encard_image.symm
    _ ≤ (Finset.range g.size : Set Nat).encard := Set.encard_le_encard hsubset
    _ = g.size := by rw [Set.encard_coe_eq_coe_finsetCard, Finset.card_range]
    _ ≤ Encoding.capacity := by exact_mod_cast hgraph.size_le

/-- The names that describe the types met in a walk are held by the table. -/
theorem encard_collectedNames_le (hs : e.Consistent root s)
    (hused : ToldApart (e.graph.Uses root))
    (hmem : ∀ type, e.graph.Uses root type → type.digest ∈ s.schema.described) :
    (e.locals.collectedNames (e.graph.Uses root)).encard ≤ SchemaTable.capacity := by
  have hsubset : e.locals.collectedNames (e.graph.Uses root) ⊆
      ((s.schema.descriptors.map (·.name)).toFinset : Set String) := by
    rintro _ ⟨d, ⟨type, htype, hd⟩, rfl⟩
    obtain ⟨c, hc, hname, -⟩ := hs.schema.held hused htype (hmem type htype) hd
    rw [List.coe_toFinset]
    exact List.mem_map.mpr ⟨c, hc, hname⟩
  refine (Set.encard_le_encard hsubset).trans ?_
  rw [Set.encard_coe_eq_coe_finsetCard]
  have hle := (List.toFinset_card_le (s.schema.descriptors.map (·.name)))
  rw [List.length_map] at hle
  exact_mod_cast hle.trans hs.schema.length_le

/-- What a walk visits without going too deep is serializable, if all lengths fit and the schema can
hold what describes the types. -/
theorem serializable_of_walk {g : ObjectGraph} {settings : Settings} {locals : LocalTypes}
    {ds : List Nat} {after : List Handle} (hgraph : g.WellFormed) (hnull : root ≠ .null)
    (hwalk : g.Walk settings.isInline 0 [] [root] ds after)
    (hdepth : ∀ depth ∈ ds, depth ≤ settings.maxDepth)
    (hunambiguous : locals.Unambiguous (g.Uses root))
    (hlength : ∀ v, g.Reaches root v → v.LengthFits)
    (htypes : (locals.collectedNames (g.Uses root)).encard ≤ SchemaTable.capacity) :
    g.Serializable settings locals root := by
  have hgrounded := (hwalk.grounded (by simp)).1 root (by simp)
  have hpresent : ∀ h, g.Reaches root (.object h) → (g.get? h).isSome = true := by
    intro k hk
    obtain ⟨o, hget, -⟩ := (hgrounded.of_reaches hk).exists_object
    rw [hget]
    rfl
  refine {
    root_ne_null := hnull
    present := hpresent
    acyclic := fun k hk => hgrounded.not_onCycle hk
    shallow := fun ds' after' hwalk' => ?_
    unambiguous := hunambiguous
    lengthFits := hlength
    objects := encard_objects_le hgraph _ fun k hk => hpresent k hk.1
    types := htypes }
  obtain ⟨rfl, -⟩ := hwalk.unique hwalk'
  exact hdepth

/-- What the walk of a successful encoding visits can be encoded. -/
theorem Follows.serializable (hgraph : e.graph.WellFormed)
    (hused : ToldApart (e.graph.Uses root)) (hnull : root ≠ .null)
    (hs : s.numbered = #[]) (h : e.Follows root 0 s [root] t) :
    e.graph.Serializable e.settings e.locals root := by
  obtain ⟨ds, hwalk, hds⟩ := h.walk
  rw [hs] at hwalk
  have hadmits := h.admits root (by simp)
  have hmem : ∀ type, e.graph.Uses root type → type.digest ∈ t.schema.described := by
    rintro _ (⟨hreach, hget⟩ | hreach)
    · exact (hadmits _ hreach).object _ _ rfl hget
    · exact (hadmits _ hreach).constant _ rfl
  refine serializable_of_walk hgraph hnull hwalk hds ?_ (fun v hv => (hadmits v hv).lengthFits)
    (encard_collectedNames_le h.consistent hused hmem)
  rintro d d' ⟨type, htype, hd⟩ ⟨type', htype', hd'⟩ hname
  exact h.consistent.schema.digest_eq hused htype (hmem type htype) htype' (hmem type' htype') hd
    hd' hname

/-! ## The conditions are enough -/

/-- What a value needs to be written inside the objects of a path: it fits, it is met from the root,
and each object of the path leads to it. -/
structure Fitting (e : Encoder) (root : Value) (path : List Handle) (declared : ValueType)
    (v : Value) : Prop where
  fits : e.graph.Fits declared v
  reaches : e.graph.Reaches root v
  below : ∀ k ∈ path, e.graph.LeadsTo k v

theorem Fitting.exists_element {declared : ValueType} {items : List Value}
    (h : e.Fitting root path declared (.list items)) :
    ∃ element, declared.element? = some element := by
  cases h.fits with
  | list => exact ⟨_, rfl⟩
  | anyList => exact ⟨_, rfl⟩

theorem Fitting.item {declared element : ValueType} {items : List Value}
    (hgrounded : e.graph.Grounded (.list items))
    (h : e.Fitting root path declared (.list items)) (helement : declared.element? = some element)
    {v : Value} (hv : v ∈ items) : e.Fitting root path element v := by
  have hitem : e.graph.Reaches (.list items) v := .item hv (.self v)
  refine ⟨?_, h.reaches.trans hitem, fun k hk => (h.below k hk).trans hitem⟩
  cases h.fits with
  | list hitems =>
    cases helement
    exact hitems v hv
  | anyList =>
    cases helement
    exact (hgrounded.items v hv).fits_any

theorem Fitting.field {declared : ValueType} {h : Handle} {o : Instance}
    (hgraph : e.graph.WellFormed) (hget : e.graph.get? h = some o)
    (hfitting : e.Fitting root path declared (.object h)) {p : ValueType × Value}
    (hp : p ∈ typedFields o) : e.Fitting root (h :: path) p.1 p.2 := by
  obtain ⟨q, hq, rfl⟩ := List.mem_map.mp hp
  have hfield : q.2 ∈ o.fields := (List.of_mem_zip hq).2
  have hreach : e.graph.Reaches (.object h) q.2 := .field hget hfield (.self _)
  refine ⟨((hgraph.object h o hget).fits q hq).1, hfitting.reaches.trans hreach, ?_⟩
  rw [List.forall_mem_cons]
  exact ⟨.field hget hfield, fun k hk => (hfitting.below k hk).trans hreach⟩

/-- A list of values is written by writing the first and then the others. -/
theorem exists_writeEach_cons {p : ValueType × Value} {rest : List (ValueType × Value)}
    {u : Encoding} {bytes : List UInt8} (hp : e.writeValue room path p.1 p.2 s = .ok bytes t)
    {chunks : List (List UInt8)} (hrest : e.writeEach room path rest t = .ok chunks u) :
    e.writeEach room path (p :: rest) s = .ok (bytes :: chunks) u :=
  Step.each_cons_eq_ok_iff.mpr ⟨bytes, t, chunks, hp, hrest, rfl⟩

/-- What holds of the state when the objects in `written` are complete. -/
structure Ready (e : Encoder) (root : Value) (written : List Handle) (s : Encoding) : Prop where
  schema : s.schema.Sound e.locals (e.graph.Uses root)
  numbered : s.numbered.toList = written
  nodup : written.Nodup
  reached : ∀ k ∈ written, e.graph.Reaches root (.object k)

theorem ready_start (e : Encoder) (root : Value) (codecs : CodecCache) :
    e.Ready root [] (Encoding.start codecs) :=
  ⟨SchemaTable.sound_empty _ _, rfl, .nil, by simp⟩

theorem Ready.idxOf?_eq_none {written : List Handle} (hs : e.Ready root written s) {h : Handle}
    (hnew : h ∉ written) : s.numbered.idxOf? h = none := by
  rw [Array.idxOf?_eq_none_iff, ← Array.mem_toList_iff, hs.numbered]
  exact hnew

theorem Ready.exists_idxOf? {written : List Handle} (hs : e.Ready root written s) {h : Handle}
    (hmem : h ∈ written) : ∃ id, s.numbered.idxOf? h = some id := by
  rw [← hs.numbered, Array.mem_toList_iff, ← Array.isSome_idxOf?] at hmem
  exact Option.isSome_iff_exists.mp hmem

/-- A type can be announced, and has a place in the schema then. -/
theorem exists_announced {type : RuntimeType} (declared : ValueType)
    (hused : ToldApart (e.graph.Uses root))
    (hsame : e.locals.Unambiguous (e.graph.Uses root))
    (hcount : (e.locals.collectedNames (e.graph.Uses root)).encard ≤ SchemaTable.capacity)
    {written : List Handle} (hs : e.Ready root written s) (htype : e.graph.Uses root type) :
    ∃ schema index, s.schema.describe e.locals type = .ok schema ∧
      schema.index? type.name = some index ∧
      e.Ready root written (announced s type declared schema) := by
  obtain ⟨schema, hschema⟩ := hs.schema.exists_describe hsame hcount htype
  obtain ⟨hsound, -, hmem⟩ := hs.schema.describe htype hschema
  obtain ⟨index, hindex⟩ := hsound.index? hused htype hmem
  exact ⟨schema, index, hschema, hindex, hsound, hs.numbered, hs.nodup, hs.reached⟩

/-- Among distinct objects of the graph there is a number for one more. -/
theorem Ready.size_lt {written : List Handle} (hgraph : e.graph.WellFormed)
    (hpresent : ∀ h, e.graph.Reaches root (.object h) → (e.graph.get? h).isSome = true)
    (hs : e.Ready root written s) {h : Handle} (hnew : h ∉ written)
    (hreach : e.graph.Reaches root (.object h)) : s.numbered.size < Encoding.capacity := by
  have hlength : (h :: written).length ≤ e.graph.size := by
    refine ObjectGraph.length_le_size (List.nodup_cons.mpr ⟨hnew, hs.nodup⟩) ?_
    rw [List.forall_mem_cons]
    refine ⟨ObjectGraph.get?_isSome_iff.mp (hpresent h hreach), fun k hk => ?_⟩
    exact ObjectGraph.get?_isSome_iff.mp (hpresent k (hs.reached k hk))
  rw [← hs.numbered, List.length_cons, Array.length_toList] at hlength
  exact Nat.lt_of_lt_of_le hlength hgraph.size_le

/-- The state after an object is complete. -/
theorem Ready.complete {written : List Handle} (hgraph : e.graph.WellFormed)
    (hpresent : ∀ h, e.graph.Reaches root (.object h) → (e.graph.get? h).isSome = true)
    (hs : e.Ready root written s) {h : Handle} (hnew : h ∉ written)
    (hreach : e.graph.Reaches root (.object h)) (o : Instance) :
    ∃ t, e.Completes o h s t ∧
      e.Ready root (ObjectGraph.completing e.settings.isInline o h written) t := by
  have hreached : ∀ k ∈ ObjectGraph.completing e.settings.isInline o h written,
      e.graph.Reaches root (.object k) := fun k hk =>
    (ObjectGraph.mem_completing hk).elim (hs.reached k) fun hself => hself ▸ hreach
  have hnodup : (ObjectGraph.completing e.settings.isInline o h written).Nodup :=
    ObjectGraph.nodup_completing hs.nodup hnew
  unfold ObjectGraph.completing at *
  by_cases hinline : e.settings.isInline o.type.name = true
  · rw [if_pos hinline] at hreached hnodup ⊢
    exact ⟨s, (completes_of_inline hinline).mpr rfl, hs⟩
  · rw [if_neg hinline] at hreached hnodup ⊢
    have hlt := hs.size_lt hgraph hpresent hnew hreach
    refine ⟨_, (completes_of_not_inline hinline).mpr ⟨hlt, rfl⟩, hs.schema, ?_, hnodup, hreached⟩
    rw [Array.toList_push, hs.numbered]

/-- A value without parts is written, and no object is completed. -/
theorem exists_writeLeaf (hg : e.graph.Serializable e.settings e.locals root)
    (hused : ToldApart (e.graph.Uses root)) {declared : ValueType} {v : Value} (hv : v.IsLeaf)
    (hfitting : e.Fitting root path declared v) {written : List Handle}
    (hs : e.Ready root written s) :
    ∃ bytes t, e.writeValue (room + 1) path declared v s = .ok bytes t ∧
      e.Ready root written t := by
  cases hv with
  | null =>
    cases hfitting.fits with
    | null hnull => exact ⟨_, s, writeNull_eq_ok_iff.mpr ⟨hnull, rfl, rfl⟩, hs⟩
  | primitive p =>
    obtain ⟨body, hbody⟩ := Primitive.exists_encode_iff.mpr (hg.lengthFits _ hfitting.reaches)
    cases hfitting.fits with
    | primitive hadmits =>
      exact ⟨_, s, writePrimitive_eq_ok_iff.mpr ⟨hadmits, body, hbody, rfl, rfl⟩, hs⟩
  | constant c =>
    obtain ⟨schema, index, hschema, hindex, ht⟩ :=
      exists_announced declared hused hg.unambiguous hg.types hs (.constant hfitting.reaches)
    cases hfitting.fits with
    | constant haccepts =>
      exact ⟨_, _, (writeConstant_eq_ok_iff c.kind_type).mpr
        ⟨schema, index, haccepts, hschema, hindex, rfl, rfl⟩, ht⟩

/-- An object with a number is referred back to. -/
theorem exists_writeAgain (hgraph : e.graph.WellFormed)
    (hg : e.graph.Serializable e.settings e.locals root)
    (hused : ToldApart (e.graph.Uses root)) {declared : ValueType} {h : Handle}
    (hfitting : e.Fitting root path declared (.object h)) {written : List Handle}
    (hs : e.Ready root written s) (hmem : h ∈ written) :
    ∃ bytes t, e.writeValue (room + 1) path declared (.object h) s = .ok bytes t ∧
      e.Ready root written t := by
  obtain ⟨o, hget, haccepts⟩ := ObjectGraph.fits_object_iff.mp hfitting.fits
  obtain ⟨schema, index, hschema, -, ht⟩ :=
    exists_announced declared hused hg.unambiguous hg.types hs (.object hfitting.reaches hget)
  obtain ⟨id, hid⟩ := hs.exists_idxOf? hmem
  refine ⟨Tag.backReference.code :: LittleEndian.ofNat 4 id, _, ?_, ht⟩
  rw [writeValue, writeObject_eq_ok_iff hget (hgraph.object h o hget).composite]
  simp only [hid, and_true]
  exact ⟨schema, haccepts, hschema, rfl⟩

/-- An object without a number is written anew when its fields can be. -/
theorem writeFresh (hgraph : e.graph.WellFormed) {declared : ValueType} {h : Handle}
    {o : Instance} (hget : e.graph.get? h = some o) (hfits : e.graph.Fits declared (.object h))
    {schema : SchemaTable} (hschema : s.schema.describe e.locals o.type = .ok schema)
    {index : Nat} (hindex : schema.index? o.type.name = some index)
    (hid : s.numbered.idxOf? h = none) (hpath : h ∉ path) {chunks : List (List UInt8)}
    {u : Encoding}
    (hfields : e.writeEach room (h :: path) (typedFields o)
      (announced s o.type declared schema) = .ok chunks u)
    (ht : e.Completes o h u t) :
    e.writeValue (room + 1) path declared (.object h) s =
      .ok ((if e.settings.isInline o.type.name then Tag.inlineObject else Tag.object).code ::
        (LittleEndian.ofNat 4 index ++ LittleEndian.ofNat 4 o.type.slots.length ++
          chunks.flatten)) t := by
  obtain ⟨o', hget', haccepts⟩ := ObjectGraph.fits_object_iff.mp hfits
  cases Option.some_inj.mp (hget.symm.trans hget')
  have hslots : o.type.slots.length < 2 ^ 32 :=
    Nat.lt_of_le_of_lt o.type.length_slots_le (by decide)
  rw [writeValue, writeObject_eq_ok_iff hget (hgraph.object h o hget).composite]
  simp only [hid]
  refine ⟨schema, haccepts, hschema, (writeNew_eq_ok_iff hget).mpr ⟨hpath, index, chunks, u, ?_⟩⟩
  exact ⟨hindex, hslots, hfields, rfl, ht⟩

/-- **The values on a walk can be written.** The induction is on the walk; the path stays clear of
the objects on it, because an object of the path that is met again would be met inside itself. -/
theorem exists_writeEach (hgraph : e.graph.WellFormed)
    (hg : e.graph.Serializable e.settings e.locals root)
    (hused : ToldApart (e.graph.Uses root)) (hgrounded : e.graph.Grounded root)
    {values : List Value} {ds : List Nat} {written after : List Handle}
    (hwalk : e.graph.Walk e.settings.isInline depth written values ds after)
    (hds : ∀ d ∈ ds, d ≤ e.settings.maxDepth) {typed : List (ValueType × Value)}
    (htyped : typed.map (·.2) = values)
    (hfitting : ∀ p ∈ typed, e.Fitting root path p.1 p.2)
    (hroom : depth + room = e.settings.maxDepth + 1) (hs : e.Ready root written s) :
    ∃ chunks t, e.writeEach room path typed s = .ok chunks t ∧ e.Ready root after t := by
  induction hwalk generalizing room path typed s with
  | nil =>
    rw [List.map_eq_nil_iff] at htyped
    subst htyped
    exact ⟨[], s, rfl, hs⟩
  | leaf hv _ ih =>
    obtain ⟨⟨declared, v⟩, rest, rfl, rfl, rfl⟩ := List.map_eq_cons_iff.mp htyped
    obtain ⟨hp, hrest⟩ := List.forall_mem_cons.mp hfitting
    obtain ⟨hdepth, hds⟩ := List.forall_mem_cons.mp hds
    obtain ⟨room, rfl⟩ : ∃ k, room = k + 1 := ⟨room - 1, by omega⟩
    obtain ⟨bytes, t, hwrite, ht⟩ := exists_writeLeaf hg hused hv hp hs
    obtain ⟨chunks, u, hothers, hu⟩ := ih hds rfl hrest hroom ht
    exact ⟨_, u, exists_writeEach_cons hwrite hothers, hu⟩
  | list _ _ ihitems ih =>
    obtain ⟨⟨declared, v⟩, rest, rfl, hv, rfl⟩ := List.map_eq_cons_iff.mp htyped
    obtain rfl : v = .list _ := hv
    obtain ⟨hp, hrest⟩ := List.forall_mem_cons.mp hfitting
    rw [List.cons_append, List.forall_mem_cons, List.forall_mem_append] at hds
    obtain ⟨hdepth, hds, hes⟩ := hds
    obtain ⟨room, rfl⟩ : ∃ k, room = k + 1 := ⟨room - 1, by omega⟩
    obtain ⟨element, helement⟩ := hp.exists_element
    obtain ⟨chunks, t, hitems, ht⟩ := ihitems hds (map_snd_typedItems element _)
      (fun q hq => by
        obtain ⟨w, hw, rfl⟩ := List.mem_map.mp hq
        exact hp.item (hgrounded.of_reaches hp.reaches) helement hw)
      (show _ + 1 + room = _ by omega) hs
    have hlist : e.writeValue (room + 1) path declared (.list _) s = .ok _ t :=
      writeList_eq_ok_iff.mpr
        ⟨element, chunks, helement, hg.lengthFits _ hp.reaches, hitems, rfl⟩
    obtain ⟨others, u, hothers, hu⟩ := ih hes rfl hrest hroom ht
    exact ⟨_, u, exists_writeEach_cons hlist hothers, hu⟩
  | again hmem _ ih =>
    obtain ⟨⟨declared, v⟩, rest, rfl, hv, rfl⟩ := List.map_eq_cons_iff.mp htyped
    obtain rfl : v = .object _ := hv
    obtain ⟨hp, hrest⟩ := List.forall_mem_cons.mp hfitting
    obtain ⟨hdepth, hds⟩ := List.forall_mem_cons.mp hds
    obtain ⟨room, rfl⟩ : ∃ k, room = k + 1 := ⟨room - 1, by omega⟩
    obtain ⟨bytes, t, hobject, ht⟩ := exists_writeAgain hgraph hg hused hp hs hmem
    obtain ⟨others, u, hothers, hu⟩ := ih hds rfl hrest hroom ht
    exact ⟨_, u, exists_writeEach_cons hobject hothers, hu⟩
  | @enter depth written between after h o values ds es hnew hget hfields _ ihfields ih =>
    obtain ⟨⟨declared, v⟩, rest, rfl, hv, rfl⟩ := List.map_eq_cons_iff.mp htyped
    obtain rfl : v = .object h := hv
    obtain ⟨hp, hrest⟩ := List.forall_mem_cons.mp hfitting
    rw [List.cons_append, List.forall_mem_cons, List.forall_mem_append] at hds
    obtain ⟨hdepth, hds, hes⟩ := hds
    obtain ⟨room, rfl⟩ : ∃ k, room = k + 1 := ⟨room - 1, by omega⟩
    obtain ⟨schema, index, hschema, hindex, hannounced⟩ :=
      exists_announced declared hused hg.unambiguous hg.types hs (.object hp.reaches hget)
    obtain ⟨chunks, t, hchunks, ht⟩ := ihfields hds
      (map_snd_typedFields (hgraph.object h o hget).length_fields)
      (fun q hq => hp.field hgraph hget hq) (show _ + 1 + room = _ by omega) hannounced
    have hcycle := hg.acyclic h hp.reaches
    have hbetween : h ∉ between := fun hmem => by
      rcases hfields.mem_after hmem with hmem | ⟨v, hv, hreach⟩
      · exact hnew hmem
      · exact hcycle ⟨o, hget, v, hv, hreach⟩
    obtain ⟨u, hcomplete, hu⟩ := ht.complete hgraph hg.present hbetween hp.reaches o
    have hpath : h ∉ path := fun hmem => hcycle (hp.below h hmem)
    have hobject := writeFresh hgraph hget hp.fits hschema hindex (hs.idxOf?_eq_none hnew) hpath
      hchunks hcomplete
    obtain ⟨others, w, hothers, hw⟩ := ih hes rfl hrest hroom hu
    exact ⟨_, w, exists_writeEach_cons hobject hothers, hw⟩

end Encoder

end ObjectEnvelope
