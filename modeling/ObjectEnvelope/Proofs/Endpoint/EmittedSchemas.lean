import ObjectEnvelope.Proofs.Endpoint.Transfers
import ObjectEnvelope.Proofs.Payload.Spelling

/-!
# Emitted schemas

The schema of an envelope stands by itself and is exact: it lists the descriptors that describe the
types of the payload and no others, each name once, and every supertype that an entry names is an
entry, the one that the digest of the entry was computed from (`LocalTypes.Inventory`).
-/

namespace ObjectEnvelope

/-- The descriptors are exactly those that describe the types, each name once. The supertypes that
they name are among them, with the digests that theirs were computed from. -/
structure LocalTypes.Inventory (locals : LocalTypes) (used : RuntimeType → Prop)
    (ds : List Descriptor) : Prop where
  names : (ds.map (·.name)).Nodup
  needed : ∀ d ∈ ds, locals.Collects used d
  parents : ∀ d ∈ ds, ∀ name, (SchemaEntry.ofDescriptor d).parent? = some name →
    ∃ p ∈ ds, p.name = name ∧ d.digest = Digest.ofBytes (d.level.signature (some p.digest))
  /-- What describes the types is listed, up to the order of interfaces. -/
  complete : ∀ d, locals.Collects used d → ∃ e ∈ ds, e.Alike d

/-- Types that are found by the digests of their descriptors are told apart where these do not
collide. -/
theorem ToldApart.of_keyed {locals : LocalTypes} {used : RuntimeType → Prop}
    (hkeyed : ∀ t, used t → t.digest = t.descriptor.digest)
    (hds : CollisionFree {d | locals.Collects used d}) : ToldApart used := by
  intro t u ht hu hdigest
  have hself : ∀ v, used v → locals.Collects used v.descriptor :=
    fun v hv => ⟨v, hv, .lineage v.descriptor.mem_lineage_self⟩
  refine SchemaTable.alike_of_collects hds (hself t ht) (hself u hu) ?_
  rw [← hkeyed t ht, ← hkeyed u hu, hdigest]

/-- The digest of a descriptor was computed from that of its supertype. -/
theorem Descriptor.digest_of_parent? {d p : Descriptor} (h : d.parent? = some p) :
    d.digest = Digest.ofBytes (d.level.signature (some p.digest)) := by
  have hsealed := d.isSealed.1
  rw [parent?_eq_some_iff.mp h] at hsealed
  exact hsealed

/-- A table that describes all types that it was made for is an inventory of them. -/
theorem SchemaTable.Sound.inventory {locals : LocalTypes} {used : RuntimeType → Prop}
    {table : SchemaTable} (h : table.Sound locals used) (hused : ToldApart used)
    (hds : CollisionFree {d | locals.Collects used d})
    (hdescribed : ∀ t, used t → t.digest ∈ table.described) :
    locals.Inventory used table.descriptors := by
  refine ⟨h.names, h.needed, fun d hd name hname => ?_, fun d hd => ?_⟩
  · obtain ⟨p, hp, rfl⟩ := Option.map_eq_some_iff.mp hname
    obtain ⟨e, he, hename, hedigest⟩ := h.parents d hd p hp
    exact ⟨e, he, hename, hedigest ▸ Descriptor.digest_of_parent? hp⟩
  · obtain ⟨t, ht, hdescribes⟩ := id hd
    obtain ⟨e, he, -, hdigest⟩ := h.held hused ht (hdescribed t ht) hdescribes
    exact ⟨e, he, alike_of_collects hds (h.needed e he) hd hdigest⟩

/-- A number that stands for a type is the place of an entry. -/
theorem Encoder.Placed.lt {e : Encoder} {root : Value} {table : SchemaTable} {type : RuntimeType}
    {index : Nat} (h : e.Placed root table type index) : index < table.entries.length := by
  obtain ⟨-, -, hindex⟩ := h
  rw [SchemaTable.entries, List.length_map]
  exact (List.findIdx?_eq_some_iff_getElem.mp hindex).1

namespace Endpoint

/-- **Emitted schemas are exact and stand by themselves.** Over types that are found by the digests
of their descriptors, which do not collide, the schema of an envelope is an inventory of the types
that the root uses, and the payload spells the root with places in the schema. -/
theorem inventory_of_encode {settings : Settings} {g : ObjectGraph} {root : Value} {s t : Endpoint}
    {envelope : Envelope} (hg : g.Built)
    (hkeyed : ∀ type, g.Uses root type → type.digest = type.descriptor.digest)
    (hds : CollisionFree {d | s.locals.Collects (g.Uses root) d})
    (hrun : encode settings g root s = .ok envelope t) :
    (∃ ds, envelope.schema = ds.map SchemaEntry.ofDescriptor ∧
      s.locals.Inventory (g.Uses root) ds) ∧
    ∃ after, g.Spells settings.isInline (fun _ index => index < envelope.schema.length) [] [root]
      envelope.payload after := by
  have hgraph := hg.wellFormed
  obtain ⟨after, hwrite, -⟩ := encode_eq_ok_iff.mp hrun
  have hfollows := Encoder.follows_of_writeRoot hgraph hwrite
  have hschema := Encoder.schema_of_writeRoot hwrite
  have hused : ToldApart (g.Uses root) := .of_keyed hkeyed hds
  constructor
  · exact ⟨after.schema.descriptors, hschema,
      (Encoder.sound_of_writeRoot hgraph hwrite).inventory hused hds fun _ => hfollows.described⟩
  · have hspells := Encoder.writeValue_spells hgraph (Encoder.zero_add_roomAt settings) (.self root)
      (Encoder.writeRoot_eq_ok_iff.mp hwrite).2.1 (Encoder.consistent_start _ root s.codecs)
      (.refl after.schema)
    refine ⟨_, hspells.mono fun type index hplaced => ?_⟩
    rw [hschema]
    exact hplaced.lt

/-! ## A type with a supertype and an interface -/

/-- What can be drawn. -/
def drawable : Descriptor :=
  ⟨Declaration.toLevel ⟨"Drawable", .interface, [], []⟩ [], [],
    Declaration.sealed_toLevel (by decide) (by decide) trivial⟩

/-- What has a number. -/
def figure : Descriptor :=
  ⟨Declaration.toLevel ⟨"Figure", .composite, [.mandatory "id" (.primitive (.scalar .u32))], []⟩
    [], [], Declaration.sealed_toLevel (by decide) (by decide) trivial⟩

/-- A figure that can be drawn. -/
def circle : Descriptor :=
  ⟨Declaration.toLevel
    ⟨"Circle", .composite, [.mandatory "r" (.primitive (.scalar .f64))], ["Drawable"]⟩
    [figure.level], [figure.level],
    Declaration.sealed_toLevel (by decide) (by decide) figure.isSealed⟩

/-- What can be drawn, as a runtime type. -/
def drawableType : RuntimeType := .ofDescriptor ⟨.known, 0, 0⟩ drawable.digest drawable (by decide)

/-- A circle, as a runtime type. -/
def circleType : RuntimeType := .ofDescriptor ⟨.known, 0, 2⟩ circle.digest circle (by decide)

/-- What is registered where circles are known; figures come with them. -/
def circleLocals : LocalTypes :=
  ⟨0, [drawableType, .ofDescriptor ⟨.known, 0, 1⟩ figure.digest figure (by decide), circleType]⟩

/-- A single circle. -/
def circles : ObjectGraph :=
  ⟨#[⟨circleType, [.primitive (.scalar (.ofNat .u32 1)), .primitive (.scalar (.ofNat .f64 0))]⟩]⟩

theorem built_circles : circles.Built := by
  have hfirst : ObjectGraph.empty.instantiate circleType
      [.primitive (.scalar (.ofNat .u32 1)), .primitive (.scalar (.ofNat .f64 0))] =
      .ok (⟨0⟩, circles) := rfl
  exact .instantiate .empty hfirst

theorem uses_circles {t : RuntimeType} (h : circles.Uses (.object ⟨0⟩) t) : t = circleType := by
  have hget : circles.get? ⟨0⟩ = some ⟨circleType, _⟩ := rfl
  rw [ObjectGraph.uses_object_iff hget] at h
  simpa [ObjectGraph.not_uses_primitive] using h

/-- A circle brings its supertype and its interface along. -/
theorem collects_circles {d : Descriptor}
    (h : circleLocals.Collects (circles.Uses (.object ⟨0⟩)) d) :
    d ∈ [circle, drawable, figure] := by
  obtain ⟨t, ht, hdescribes⟩ := h
  obtain rfl := uses_circles ht
  have hclosure := LocalTypes.mem_closure_iff.mpr hdescribes
  exact hclosure

/-- The schema of a circle lists the circle, its interface and its supertype. -/
theorem inventory_of_encode_circles :
    ∃ envelope t, encode .standard circles (.object ⟨0⟩) ⟨circleLocals, .empty 0, .empty⟩ =
      .ok envelope t ∧ ∃ ds, envelope.schema = ds.map SchemaEntry.ofDescriptor ∧
        circleLocals.Inventory (circles.Uses (.object ⟨0⟩)) ds := by
  obtain ⟨envelope, t, hrun⟩ : ∃ envelope t,
      encode .standard circles (.object ⟨0⟩) ⟨circleLocals, .empty 0, .empty⟩ =
        .ok envelope t := Step.exists_of_succeeds (by decide +kernel)
  have hdigests : ([circle, drawable, figure].map Descriptor.digest).Nodup := by decide +kernel
  have hcollision :
      CollisionFree {d | circleLocals.Collects (circles.Uses (.object ⟨0⟩)) d} := by
    intro d hd e he hdigest
    rw [List.inj_on_of_nodup_map hdigests (collects_circles hd) (collects_circles he) hdigest]
    exact (Descriptor.Alike.refl _).same
  refine ⟨envelope, t, hrun, (inventory_of_encode built_circles ?_ hcollision hrun).1⟩
  intro type htype
  rw [uses_circles htype]
  rfl

end Endpoint

end ObjectEnvelope
