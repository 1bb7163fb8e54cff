import ObjectEnvelope.Proofs.Endpoint.RoundTrips
import ObjectEnvelope.Proofs.Payload.Spelling

/-!
# Places of types

Every object and constant in a payload names the place of an entry that describes its type, as long
as the types in the graph are told apart by their digests. The schema is extended once for each
digest, but its entries are found by name, so that two types of one name and one digest share the
entry of the first.
-/

namespace ObjectEnvelope

namespace Encoder

variable {e : Encoder} {root : Value} {envelope : Envelope} {codecs : CodecCache} {after : Encoding}

/-- What is written of a root spells it with places of entries that describe its types. -/
theorem spells_of_writeRoot (hgraph : e.graph.WellFormed) (hused : ToldApart (e.graph.Uses root))
    (hds : CollisionFree {d | e.locals.Collects (e.graph.Uses root) d})
    (h : e.writeRoot root (Encoding.start codecs) = .ok envelope after) :
    e.graph.Spells e.settings.isInline envelope.Places [] [root] envelope.payload
      after.numbered.toList := by
  obtain ⟨-, hvalue, hschema⟩ := writeRoot_eq_ok_iff.mp h
  have hsound := sound_of_writeRoot hgraph h
  have hspells := writeValue_spells hgraph (zero_add_roomAt e.settings) (.self root) hvalue
    (consistent_start e root codecs) (.refl after.schema)
  exact hspells.mono fun type index hplace => hplace.places hsound hused hds hschema

/-- Descriptors of one name that a written root brings along are alike. -/
theorem alike_of_writeRoot (hgraph : e.graph.WellFormed) (hused : ToldApart (e.graph.Uses root))
    (hds : CollisionFree {d | e.locals.Collects (e.graph.Uses root) d})
    (h : e.writeRoot root (Encoding.start codecs) = .ok envelope after) {a b : Descriptor}
    (ha : e.locals.Collects (e.graph.Uses root) a) (hb : e.locals.Collects (e.graph.Uses root) b)
    (hname : a.name = b.name) : a.Alike b := by
  have hfollows := follows_of_writeRoot hgraph h
  obtain ⟨type, htype, hdescribes⟩ := id ha
  obtain ⟨other, hother, hdescribes'⟩ := id hb
  have hdigest := hfollows.consistent.schema.digest_eq hused htype (hfollows.described htype) hother
    (hfollows.described hother) hdescribes hdescribes' hname
  exact SchemaTable.alike_of_collects hds ha hb hdigest

end Encoder

namespace Endpoint

/-- **Payloads name the entries that describe their types.** Over types that their digests tell
apart, an envelope has each name once, and its payload spells the root with places of entries that
describe the types in it. A graph that brings two different descriptors of one name is refused. -/
theorem spells_of_encode {settings : Settings} {g : ObjectGraph} {root : Value} {s : Endpoint}
    (hg : g.Built) (hused : ToldApart (g.Uses root))
    (hds : CollisionFree {d | s.locals.Collects (g.Uses root) d}) :
    (∀ envelope t, encode settings g root s = .ok envelope t →
      (envelope.schema.map (·.name)).Nodup ∧
        ∃ after, g.Spells settings.isInline envelope.Places [] [root] envelope.payload after) ∧
    ∀ d e, s.locals.Collects (g.Uses root) d → s.locals.Collects (g.Uses root) e →
      d.name = e.name → ¬ d.Alike e →
      ∃ f t, encode settings g root s = .error f t ∧ f.kind = .notSerializable := by
  have hgraph := hg.wellFormed
  constructor
  · intro envelope t hrun
    obtain ⟨after, hwrite, -⟩ := encode_eq_ok_iff.mp hrun
    have hsound := (Encoder.follows_of_writeRoot hgraph hwrite).consistent.schema
    refine ⟨?_, _, Encoder.spells_of_writeRoot hgraph hused hds hwrite⟩
    rw [(Encoder.writeRoot_eq_ok_iff.mp hwrite).2.2, SchemaTable.entries, List.map_map]
    exact hsound.names
  · intro d e hd he hname hunlike
    cases hrun : encode settings g root s with
    | error f t =>
      obtain ⟨after, hwrite, -⟩ := encode_eq_error_iff.mp hrun
      exact ⟨f, t, rfl, Encoder.writeRoot_fails hgraph root _ _ _ hwrite⟩
    | ok envelope t =>
      obtain ⟨after, hwrite, -⟩ := encode_eq_ok_iff.mp hrun
      exact absurd (Encoder.alike_of_writeRoot hgraph hused hds hwrite hd he hname) hunlike

/-- The two cells name the entry of their type. -/
theorem spells_of_encode_cells : ∃ after,
    cells.Spells Settings.standard.isInline cellsEnvelope.Places [] [cellsRoot]
      cellsEnvelope.payload after := by
  obtain ⟨t, hrun⟩ := encode_cells
  have htold : ToldApart (cells.Uses cellsRoot) := by
    intro t u ht hu _
    rw [uses_cells ht, uses_cells hu]
    exact .refl _
  have hcollected : ∀ d, cellLocals.Collects (cells.Uses cellsRoot) d → d = cell := by
    rintro d ⟨u, hu, hdescribes⟩
    rw [uses_cells hu] at hdescribes
    cases hdescribes with
    | lineage hd => exact List.mem_singleton.mp hd
    | interface hd hname =>
      rw [List.mem_singleton.mp hd] at hname
      cases hname
  have hcollision : CollisionFree {d | cellLocals.Collects (cells.Uses cellsRoot) d} := by
    intro d hd e he _
    rw [hcollected d hd, hcollected e he]
    exact (Descriptor.Alike.refl _).same
  exact ((spells_of_encode built_cells htold hcollision).1 cellsEnvelope t hrun).2

/-! ## Types that share a digest -/

/-- A point on a line. -/
def point : Descriptor :=
  ⟨Declaration.toLevel ⟨"Point", .composite, [.mandatory "x" (.primitive (.scalar .i32))], []⟩ [],
    [], Declaration.sealed_toLevel (by decide) (by decide) trivial⟩

/-- A point in the plane, of the same name. -/
def planePoint : Descriptor :=
  ⟨Declaration.toLevel ⟨"Point", .composite, [.mandatory "x" (.primitive (.scalar .i32)),
    .mandatory "y" (.primitive (.scalar .i32))], []⟩ [],
    [], Declaration.sealed_toLevel (by decide) (by decide) trivial⟩

/-- The digest that some caches keep all descriptors under. -/
def fixedDigest : Digest := Digest.ofBytes (Utf8.encode "fixed")

/-- The first type of a cache that keeps its types under the fixed digest. -/
def keyedType (home : Nat) (d : Descriptor) (h : d.layoutFault? = none) : RuntimeType :=
  .ofDescriptor ⟨.synthesized, home, 0⟩ fixedDigest d h

theorem synthesize_keyedType (home : Nat) {d : Descriptor} (h : d.layoutFault? = none)
    (hparent : d.ancestors = []) :
    SynthesisCache.synthesize (fun _ => false) d ⟨home, fun _ => fixedDigest, []⟩ =
      .ok (keyedType home d h) ⟨home, fun _ => fixedDigest, [keyedType home d h]⟩ := by
  have hmissing : SynthesisCache.missing ⟨home, fun _ => fixedDigest, []⟩ (fun _ => false)
      d.ancestors = .ok [] := by
    rw [hparent]
    rfl
  rw [SynthesisCache.synthesize_of_missing hmissing]
  show SynthesisCache.synthesizeOne d ⟨home, fun _ => fixedDigest, []⟩ = _
  have hcreate : RuntimeType.create ⟨.synthesized, home, 0⟩ fixedDigest d =
      .ok (keyedType home d h) := RuntimeType.create_eq_ok_iff.mpr ⟨h, rfl, rfl, rfl⟩
  unfold SynthesisCache.synthesizeOne
  simp only [SynthesisCache.cached, SynthesisCache.get?, List.find?_nil, List.length_nil, hcreate,
    List.nil_append]

/-- The two types of points, synthesized apart from each other. -/
def pointType : RuntimeType := keyedType 1 point (by decide)

@[inherit_doc pointType]
def planePointType : RuntimeType := keyedType 2 planePoint (by decide)

/-- A point of either type. -/
def points : ObjectGraph :=
  ⟨#[⟨pointType, [.primitive (.scalar (.ofNat .i32 1))]⟩,
    ⟨planePointType, [.primitive (.scalar (.ofNat .i32 2)), .primitive (.scalar (.ofNat .i32 3))]⟩]⟩

/-- The two points, one after the other. -/
def pointsRoot : Value := .list [.object ⟨0⟩, .object ⟨1⟩]

theorem built_points : points.Built := by
  have hfirst : ObjectGraph.empty.instantiate pointType [.primitive (.scalar (.ofNat .i32 1))] =
      .ok (⟨0⟩, ⟨#[⟨pointType, [.primitive (.scalar (.ofNat .i32 1))]⟩]⟩) := rfl
  have hsecond : ObjectGraph.instantiate
      ⟨#[⟨pointType, [.primitive (.scalar (.ofNat .i32 1))]⟩]⟩ planePointType
      [.primitive (.scalar (.ofNat .i32 2)), .primitive (.scalar (.ofNat .i32 3))] =
      .ok (⟨1⟩, points) := rfl
  exact .instantiate (.instantiate .empty hfirst) hsecond

/-- The two points on the wire, both with the place of the first. -/
def pointsEnvelope : Envelope where
  payload :=
    [0x10, 2, 0, 0, 0] ++ [0x12, 0, 0, 0, 0, 1, 0, 0, 0, 0x07, 1, 0, 0, 0] ++
      [0x12, 0, 0, 0, 0, 2, 0, 0, 0, 0x07, 2, 0, 0, 0, 0x07, 3, 0, 0, 0]
  schema := [.ofDescriptor point]

theorem encode_points : ∃ t, encode .standard points pointsRoot (.empty 0) = .ok pointsEnvelope t :=
  Step.exists_of_outcome (by decide +kernel)

theorem uses_points {t : RuntimeType} (h : points.Uses pointsRoot t) :
    t = pointType ∨ t = planePointType := by
  obtain ⟨v, hv, h⟩ := ObjectGraph.uses_list_iff.mp h
  have hfirst : points.get? ⟨0⟩ = some ⟨pointType, _⟩ := rfl
  have hsecond : points.get? ⟨1⟩ = some ⟨planePointType, _⟩ := rfl
  simp only [List.mem_cons, List.not_mem_nil, or_false] at hv
  rcases hv with rfl | rfl
  · rw [ObjectGraph.uses_object_iff hfirst] at h
    simpa [ObjectGraph.not_uses_primitive] using Or.inl h
  · rw [ObjectGraph.uses_object_iff hsecond] at h
    simpa [ObjectGraph.not_uses_primitive] using Or.inr h

/-- Two synthesized types of one name and one digest are encoded under the entry of the first,
instead of being refused. -/
theorem not_forall_spells_of_encode :
    ¬ ∀ (g : ObjectGraph) (root : Value) (s t : Endpoint) (envelope : Envelope), g.Built →
      (∀ type, g.Uses root type → ∃ home key after,
        SynthesisCache.synthesize (fun _ => false) type.descriptor ⟨home, key, []⟩ =
          .ok type after) →
      encode .standard g root s = .ok envelope t →
      ∃ after, g.Spells Settings.standard.isInline envelope.Places [] [root] envelope.payload
        after := by
  intro hclaim
  obtain ⟨t, hrun⟩ := encode_points
  have hsynthesized : ∀ type, points.Uses pointsRoot type → ∃ home key after,
      SynthesisCache.synthesize (fun _ => false) type.descriptor ⟨home, key, []⟩ =
        .ok type after := by
    intro type htype
    rcases uses_points htype with rfl | rfl
    · exact ⟨1, _, _, synthesize_keyedType 1 (by decide) rfl⟩
    · exact ⟨2, _, _, synthesize_keyedType 2 (by decide) rfl⟩
  obtain ⟨after, hspells⟩ :=
    hclaim points pointsRoot _ t pointsEnvelope built_points hsynthesized hrun
  have hreach : points.Reaches pointsRoot (.object ⟨1⟩) := .item (by simp) (.self _)
  have huse : points.Uses pointsRoot planePointType := .object hreach rfl
  obtain ⟨index, -, entry, hentry, hdescribes⟩ :=
    (hspells.exists_place nofun).1 _ List.mem_cons_self _ huse
  -- the only entry is that of the point on a line
  have hpoint := List.mem_singleton.mp (List.mem_of_getElem? hentry)
  have hfields := hdescribes.outlines.fields
  rw [hpoint] at hfields
  exact absurd hfields (by decide)

end Endpoint

end ObjectEnvelope
