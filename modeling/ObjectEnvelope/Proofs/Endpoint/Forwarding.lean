import ObjectEnvelope.Proofs.Endpoint.DecodedGraphs
import ObjectEnvelope.Proofs.Endpoint.EmittedSchemas
import ObjectEnvelope.Proofs.Endpoint.Independence

/-!
# Forwarding

An endpoint that wants to pass on what it decoded has to encode it. The graph does not stand in the
way: it has no cycle, lies within the depth limit, and all its lengths fit. The endpoint's own types
may. A type of the schema can name an interface that is registered with the endpoint, and then the
encoding describes the registered type, under a name that the schema may use for another structure
(`LocalTypes.Clashes`). An endpoint without inline types can forward what it decoded exactly when
this does not happen and the schema has room for all names (`Endpoint.encode_decoded_iff`).
-/

namespace ObjectEnvelope

/-! ## Clashes -/

namespace LocalTypes

variable {locals : LocalTypes} {used : RuntimeType → Prop} {ds : Set Descriptor}
  {t u : RuntimeType} {d e : Descriptor} {schema : List SchemaEntry}

/-- The descriptor comes with the type: it is in the lineage of a local type that is an interface of
the type or of one of its supertypes. -/
def Implies (locals : LocalTypes) (t : RuntimeType) (d : Descriptor) : Prop :=
  ∃ c ∈ t.descriptor.lineage, ∃ name ∈ c.interfaces, d ∈ locals.lineageOf name

/-- A descriptor that comes with one of the types has the name of another that is in the lineage of
one of them, but not its digest. -/
def Clashes (locals : LocalTypes) (used : RuntimeType → Prop) : Prop :=
  ∃ t u d e, used t ∧ locals.Implies t d ∧ used u ∧ e ∈ u.descriptor.lineage ∧ d.name = e.name ∧
    d.digest ≠ e.digest

/-- What describes a type is in its lineage or comes with it. -/
theorem describes_iff : locals.Describes t d ↔ d ∈ t.descriptor.lineage ∨ locals.Implies t d := by
  constructor
  · rintro (hd | ⟨hc, hname, hlookup, hd⟩)
    · exact .inl hd
    · exact .inr ⟨_, hc, _, hname, mem_lineageOf_iff.mpr ⟨_, hlookup, hd⟩⟩
  · rintro (hd | ⟨c, hc, name, hname, hd⟩)
    · exact .lineage hd
    · obtain ⟨k, hlookup, hd⟩ := mem_lineageOf_iff.mp hd
      exact .interface hc hname hlookup hd

/-- What comes with a type is bound. -/
theorem Consistent.binds_of_implies (h : locals.Consistent ds) (hd : locals.Implies t d) :
    locals.Binds d := by
  obtain ⟨c, -, name, -, hd⟩ := hd
  obtain ⟨k, hlookup, hd⟩ := mem_lineageOf_iff.mp hd
  exact h.binds k (mem_of_lookup? hlookup).1 d hd

/-- Bound descriptors of one name have one digest. -/
theorem Binds.digest_eq (h : locals.Consistent ds) (hd : locals.Binds d) (he : locals.Binds e)
    (hname : d.name = e.name) : d.digest = e.digest := by
  obtain ⟨t, hlookup, hdigest⟩ := hd.exists_lookup? h
  obtain ⟨u, hlookup', hdigest'⟩ := he.exists_lookup? h
  rw [← hname, hlookup, Option.some_inj] at hlookup'
  rw [← hdigest, ← hdigest', hlookup']

end LocalTypes

/-- Descriptors of one name that a schema describes, itself or as supertypes, have one digest. -/
theorem SchemaEntry.Describes.digest_eq {schema : List SchemaEntry}
    (hnames : (schema.map (·.name)).Nodup) {a b : SchemaEntry} (ha : a ∈ schema) (hb : b ∈ schema)
    {c c' d e : Descriptor} (hc : Describes schema a c) (hc' : Describes schema b c')
    (hd : d ∈ c.lineage) (he : e ∈ c'.lineage) (hname : d.name = e.name) :
    d.digest = e.digest := by
  obtain ⟨p, hp, hpd⟩ := hc.exists_of_mem_lineage ha hd
  obtain ⟨q, hq, hqe⟩ := hc'.exists_of_mem_lineage hb he
  have hsame : p.name = q.name := by
    rw [hpd.outlines.name, hqe.outlines.name, hname]
  obtain rfl : p = q := List.inj_on_of_nodup_map hnames hp hq hsame
  exact (hpd.alike hnames hqe).digest

/-- Where the types are those of a schema, names are shared only in clashes. -/
theorem LocalTypes.Consistent.unambiguous_iff {ds : Set Descriptor} {locals : LocalTypes}
    (h : locals.Consistent ds) {schema : List SchemaEntry} (hnames : (schema.map (·.name)).Nodup)
    {used : RuntimeType → Prop} (hdescribed : ∀ t, used t →
      ∃ entry ∈ schema, SchemaEntry.Describes schema entry t.descriptor) :
    locals.Unambiguous used ↔ ¬ locals.Clashes used := by
  constructor
  · rintro hsame ⟨t, u, d, e, ht, hd, hu, he, hname, hdigest⟩
    exact hdigest (hsame d e ⟨t, ht, describes_iff.mpr (.inr hd)⟩ ⟨u, hu, .lineage he⟩ hname)
  · rintro hclash d e ⟨t, ht, hd⟩ ⟨u, hu, he⟩ hname
    by_contra hdigest
    rcases describes_iff.mp hd with hd | hd
    · rcases describes_iff.mp he with he | he
      · obtain ⟨a, ha, hat⟩ := hdescribed t ht
        obtain ⟨b, hb, hbu⟩ := hdescribed u hu
        exact hdigest (hat.digest_eq hnames ha hb hbu hd he hname)
      · exact hclash ⟨u, t, e, d, hu, he, ht, hd, hname.symm, Ne.symm hdigest⟩
    · rcases describes_iff.mp he with he | he
      · exact hclash ⟨t, u, d, e, ht, hd, hu, he, hname, hdigest⟩
      · exact hdigest ((h.binds_of_implies hd).digest_eq h (h.binds_of_implies he) hname)

namespace Endpoint

variable {S : Settings} {s t u : Endpoint} {envelope : Envelope} {d : DecodedGraph}
  {types : List RuntimeType}

/-! ## Decoded graphs -/

/-- What a schema is resolved to has distinct digests where descriptors differ, and is described by
its entries. -/
theorem Served.toldApart_of_resolve (h : s.Served) {schema : List SchemaEntry}
    (hclosed : SchemaEntry.Closed schema) (hds : CollisionFree (s.Involved schema))
    (hresolve : resolve S schema s = .ok types u) :
    ToldApart (· ∈ types) ∧
      ∀ t ∈ types, ∃ entry ∈ schema, SchemaEntry.Describes schema entry t.descriptor := by
  obtain ⟨hgrounded, hfaithful⟩ := h.faithful (Set.Subset.refl _) hclosed S.maxDepth
  obtain ⟨after, hrun, -⟩ := resolve_eq_ok_iff.mp hresolve
  have hfound := hfaithful.resolveAll hds hgrounded hrun
  have hdescribed : ∀ t ∈ types, t.digest = t.descriptor.digest ∧
      ∃ entry ∈ schema, SchemaEntry.Describes schema entry t.descriptor := by
    intro t ht
    obtain ⟨p, hp, hdescribes, hdigest⟩ := forall₂_exists_left hfound ht
    exact ⟨hdigest, p.entry, Resolver.mem_schema_of_placed hp, hdescribes⟩
  refine ⟨fun t u ht hu hdigest => ?_, fun t ht => (hdescribed t ht).2⟩
  obtain ⟨ht, a, ha, hat⟩ := hdescribed t ht
  obtain ⟨hu, b, hb, hbu⟩ := hdescribed u hu
  refine (hgrounded.described a ha _ hat).alike hds (hgrounded.described b hb _ hbu) ?_
  rw [← ht, ← hu, hdigest]

/-- A decoded graph is serializable if its types are unambiguous and the schema has room for what
describes them. -/
theorem serializable_of_decode (hinline : S.inlineTypes = [])
    (hdecode : decode S envelope .any s = .ok d t)
    (hunambiguous : s.locals.Unambiguous (d.graph.Uses d.root))
    (htypes : (s.locals.collectedNames (d.graph.Uses d.root)).encard ≤ SchemaTable.capacity) :
    d.graph.Serializable S s.locals d.root := by
  obtain ⟨types, u, -, hresolve, -⟩ := decode_eq_ok_iff.mp hdecode
  obtain ⟨-, hretraces⟩ := retraces_of_decode hresolve hdecode
  obtain ⟨ds, hwalk, hdepth⟩ := hretraces.walk
  have hnone : S.isInline = fun _ => false := by
    funext name
    unfold Settings.isInline
    rw [hinline]
    rfl
  rw [← hnone] at hwalk
  have hroot := hretraces.parts d.root (List.mem_singleton_self _)
  exact Encoder.serializable_of_walk hretraces.made.built.wellFormed
    (decode_sound hdecode).2.root_ne_null hwalk hdepth hunambiguous
    (fun v hv => (hretraces.made.of_reaches hroot hv).lengthFits v (.self v)) htypes

/-- **Forwarding.** An endpoint without inline types, whose types and those of the schema are told
apart by their digests, encodes what it decoded, unless one of its own types clashes with a type of
the schema or there are more names than the schema can hold; then the encoding fails, and says that
a value has none. -/
theorem encode_decoded_iff (hserved : s.Served) (hinline : S.inlineTypes = [])
    (hclosed : SchemaEntry.Closed envelope.schema)
    (hds : CollisionFree (s.Involved envelope.schema))
    (hdecode : decode S envelope .any s = .ok d t) :
    ((∃ again u, encode S d.graph d.root t = .ok again u) ↔
        ¬ s.locals.Clashes (d.graph.Uses d.root) ∧
        (s.locals.collectedNames (d.graph.Uses d.root)).encard ≤ SchemaTable.capacity) ∧
      ∀ e u, encode S d.graph d.root t = .error e u → e.kind = .notSerializable := by
  obtain ⟨types, u, -, hresolve, -⟩ := decode_eq_ok_iff.mp hdecode
  obtain ⟨hlocals, hretraces⟩ := retraces_of_decode hresolve hdecode
  obtain ⟨htold, hdescribed⟩ := hserved.toldApart_of_resolve hclosed hds hresolve
  have hmem : ∀ type, d.graph.Uses d.root type → type ∈ types := fun type htype =>
    hretraces.made.mem_of_uses (hretraces.parts _ (List.mem_singleton_self _)) htype
  have hused : ToldApart (d.graph.Uses d.root) :=
    fun a b ha hb hab => htold a b (hmem a ha) (hmem b hb) hab
  have hunambiguous : s.locals.Unambiguous (d.graph.Uses d.root) ↔
      ¬ s.locals.Clashes (d.graph.Uses d.root) :=
    hserved.keyed.locals.consistent.unambiguous_iff hclosed.names
      fun type htype => hdescribed type (hmem type htype)
  have hgraph := hretraces.made.built.wellFormed
  constructor
  · rw [← hunambiguous]
    constructor
    · rintro ⟨again, u, hrun⟩
      obtain ⟨after, hwrite, -⟩ := encode_eq_ok_iff.mp hrun
      rw [hlocals] at hwrite
      have hserializable : d.graph.Serializable S s.locals d.root :=
        Encoder.serializable_of_writeRoot hgraph hused hwrite
      exact ⟨hserializable.unambiguous, hserializable.types⟩
    · rintro ⟨hunambiguous, htypes⟩
      have hserializable := serializable_of_decode hinline hdecode hunambiguous htypes
      exact exists_encode hgraph hused (hlocals ▸ hserializable)
  · intro e u hrun
    obtain ⟨after, hwrite, -⟩ := encode_eq_error_iff.mp hrun
    exact Encoder.writeRoot_fails hgraph d.root _ _ _ hwrite

/-- A circle on the wire, with its supertype and the interface that it names. -/
def circlesEnvelope : Envelope where
  payload :=
    [0x12, 0, 0, 0, 0, 2, 0, 0, 0] ++ [0x06, 1, 0, 0, 0] ++ [0x0b, 0, 0, 0, 0, 0, 0, 0, 0]
  schema := [circle, drawable, figure].map .ofDescriptor

/-- What is registered where only the interface is known. -/
def drawableLocals : LocalTypes := ⟨0, [drawableType]⟩

theorem closed_circles : SchemaEntry.Closed circlesEnvelope.schema := by
  refine ⟨by decide, fun entry hentry name hname => ?_⟩
  obtain ⟨d, hd, rfl⟩ := List.mem_map.mp hentry
  simp only [List.mem_cons, List.not_mem_nil, or_false] at hd
  rcases hd with rfl | rfl | rfl
  · obtain rfl : "Figure" = name := Option.some_inj.mp hname
    exact ⟨.ofDescriptor figure, by simp [circlesEnvelope], rfl⟩
  · cases hname
  · cases hname

theorem describes_circles {d : Descriptor} (hd : d ∈ [circle, drawable, figure]) :
    SchemaEntry.Describes circlesEnvelope.schema (.ofDescriptor d) d := by
  have hfigure : SchemaEntry.Describes circlesEnvelope.schema (.ofDescriptor figure) figure :=
    .top (.ofDescriptor figure) rfl rfl
  simp only [List.mem_cons, List.not_mem_nil, or_false] at hd
  rcases hd with rfl | rfl | rfl
  · exact .under (.ofDescriptor circle) rfl rfl (by simp [circlesEnvelope]) hfigure
  · exact .top (.ofDescriptor drawable) rfl rfl
  · exact hfigure

/-- No two of the three descriptors share a digest, and no others are involved. -/
theorem collisionFree_circles :
    CollisionFree (Involved ⟨drawableLocals, .empty 0, .empty⟩ circlesEnvelope.schema) := by
  have hinvolved : ∀ c ∈ Involved ⟨drawableLocals, .empty 0, .empty⟩ circlesEnvelope.schema,
      ∃ d ∈ [circle, drawable, figure], c.Alike d := by
    rintro c (⟨t, ht | ht, hc⟩ | ⟨entry, hentry, hc⟩)
    · rw [List.mem_singleton.mp ht] at hc
      exact ⟨drawable, by simp, List.mem_singleton.mp hc ▸ .refl _⟩
    · cases ht
    · obtain ⟨d, hd, rfl⟩ := List.mem_map.mp hentry
      exact ⟨d, hd, hc.alike closed_circles.names (describes_circles hd)⟩
  have hdigests : ([circle, drawable, figure].map Descriptor.digest).Nodup := by decide +kernel
  intro a ha b hb hdigest
  obtain ⟨c, hc, hac⟩ := hinvolved a ha
  obtain ⟨c', hc', hbc⟩ := hinvolved b hb
  obtain rfl := List.inj_on_of_nodup_map hdigests hc hc'
    (hac.digest.symm.trans (hdigest.trans hbc.digest))
  exact (hac.trans hbc.symm).same

/-- An endpoint with which the interface is registered decodes a circle, whose type names it, and
encodes it again: what comes with the circle does not clash with it. -/
theorem encode_decoded_iff_circles :
    ∃ d t, decode .standard circlesEnvelope .any ⟨drawableLocals, .empty 0, .empty⟩ = .ok d t ∧
      (∃ type, d.graph.Uses d.root type ∧ drawableLocals.Implies type drawable) ∧
      (∃ again u, encode .standard d.graph d.root t = .ok again u) ∧
      ¬ drawableLocals.Clashes (d.graph.Uses d.root) := by
  have hserved : Served ⟨drawableLocals, .empty 0, .empty⟩ := .call (.register drawable) (.empty 0)
  obtain ⟨d, t, hdecode, hcheck⟩ := Step.exists_of_succeedsWith
    (show Step.succeedsWith (decode .standard circlesEnvelope .any)
      ⟨drawableLocals, .empty 0, .empty⟩ (fun d t =>
        (d.root.handles.any fun h => (d.graph.get? h).any fun o =>
          o.type.descriptor.interfaces.contains "Drawable") &&
        Step.succeeds (encode .standard d.graph d.root) t) = true by decide +kernel)
  rw [Bool.and_eq_true] at hcheck
  obtain ⟨again, u, hencode⟩ := Step.exists_of_succeeds hcheck.2
  obtain ⟨h, hh, hfound⟩ := List.any_eq_true.mp hcheck.1
  obtain ⟨o, hget, hname⟩ := (Option.any_eq_true _ _).mp hfound
  have huses : d.graph.Uses d.root o.type := .object (ObjectGraph.reaches_of_mem_handles hh) hget
  have hlocal : drawable ∈ drawableLocals.lineageOf "Drawable" :=
    LocalTypes.mem_lineageOf_iff.mpr ⟨drawableType, rfl, drawable.mem_lineage_self⟩
  have himplies : drawableLocals.Implies o.type drawable :=
    ⟨_, o.type.descriptor.mem_lineage_self, "Drawable", List.contains_iff_mem.mp hname, hlocal⟩
  have hforwards := encode_decoded_iff hserved rfl closed_circles collisionFree_circles hdecode
  exact ⟨d, t, hdecode, ⟨o.type, huses, himplies⟩, ⟨again, u, hencode⟩,
    (hforwards.1.mp ⟨again, u, hencode⟩).1⟩

/-! ## A graph that cannot be forwarded -/

/-- An interface without fields. -/
def shape : Descriptor :=
  ⟨Declaration.toLevel ⟨"Shape", .interface, [], []⟩ [], [],
    Declaration.sealed_toLevel (by decide) (by decide) trivial⟩

/-- A schema in which the name of the interface stands for a type with instances, and another type
names it as an interface; and an instance of each. -/
def shapesEnvelope : Envelope where
  payload :=
    [0x10, 2, 0, 0, 0] ++ [0x12, 0, 0, 0, 0, 0, 0, 0, 0] ++ [0x12, 1, 0, 0, 0, 0, 0, 0, 0]
  schema := [⟨"Shape", .composite, none, [], []⟩, ⟨"Circle", .composite, none, ["Shape"], []⟩]

/-- Not everything that is decoded can be forwarded: where the interface is registered, the two
structures of its name meet in one schema. -/
theorem not_forall_encode_decoded :
    ¬ ∀ (S : Settings) (s t : Endpoint) (envelope : Envelope) (d : DecodedGraph), s.Served →
      S.inlineTypes = [] → SchemaEntry.Closed envelope.schema →
      decode S envelope .any s = .ok d t →
      ∃ again u, encode S d.graph d.root t = .ok again u := by
  intro hclaim
  let s : Endpoint := (register shape).after (.empty 0)
  have hserved : s.Served := .call (.register shape) (.empty 0)
  have hclosed : SchemaEntry.Closed shapesEnvelope.schema := by
    refine ⟨by decide, fun entry hentry name hname => ?_⟩
    have hnone : ∀ entry ∈ shapesEnvelope.schema, entry.parent? = none := by decide
    rw [hnone entry hentry] at hname
    cases hname
  obtain ⟨d, t, hdecode⟩ := Step.exists_of_succeeds
    (show Step.succeeds (decode .standard shapesEnvelope .any) s = true by decide +kernel)
  obtain ⟨again, u, hencode⟩ := hclaim .standard s t shapesEnvelope d hserved rfl hclosed hdecode
  have hfails : Step.succeeds (do
      let d ← decode .standard shapesEnvelope .any
      encode .standard d.graph d.root) s = false := by
    decide +kernel
  rw [Step.succeeds, Step.bind_eq_ok_iff.mpr ⟨d, t, hdecode, hencode⟩] at hfails
  cases hfails

end Endpoint

end ObjectEnvelope
