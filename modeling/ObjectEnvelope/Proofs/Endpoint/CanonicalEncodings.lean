import ObjectEnvelope.Proofs.Endpoint.OwnEnvelopes
import ObjectEnvelope.Proofs.Graph.Relabeling
import ObjectEnvelope.Proofs.Payload.Rewriting

/-!
# Canonical encodings

Without inline types an encoding tells registered types and the objects that a root leads to, up to
their handles, and nothing else (`Endpoint.eq_iff_exists_isRelabeling`). A graph that is a
relabeling of another is written in the same steps (`Encoder.eq_of_isRelabeling`). Conversely one
envelope of two graphs is read to one copy of both (`Encoder.exists_isRelabeling`): the types at its
places are found by their names, hence are the same for both.
-/

namespace ObjectEnvelope

/-! ## Types of one name -/

namespace LocalTypes

variable {ds : Set Descriptor} {locals : LocalTypes} {t u v : RuntimeType}

/-- Registered types of one name are the same. -/
theorem Consistent.eq_of_name_eq (h : locals.Consistent ds) (ht : t ∈ locals.types)
    (hu : u ∈ locals.types) (hname : t.name = u.name) : t = u :=
  List.inj_on_of_nodup_map h.names ht hu hname

/-- Registered types with a common twin are the same. -/
theorem Consistent.eq_of_twins (h : locals.Consistent ds) (ht : t ∈ locals.types)
    (hu : u ∈ locals.types) (htwin : t.Twin v) (htwin' : u.Twin v) : u = t :=
  h.eq_of_name_eq hu ht (htwin'.alike.name.trans htwin.alike.name.symm)

end LocalTypes

namespace Resolver

variable {r : Resolver} {locals : LocalTypes} {table table' : SchemaTable} {ds : Set Descriptor}

/-- The entries of a table of bound descriptors have their own types. -/
theorem exists_own (hlocals : locals.Consistent ds) (hschema : r.schema = table.entries)
    (hbinds : ∀ d ∈ table.descriptors, locals.Binds d) :
    ∃ types, List.Forall₂ (Own locals table) r.placed types := by
  have hown : ∀ p ∈ r.placed, ∃ type, Own locals table p type := by
    intro p hp
    obtain ⟨d, hplace, -⟩ := (mem_placed_entries_iff hschema).mp hp
    obtain ⟨type, hlookup, hdigest⟩ :=
      (hbinds d (List.mem_of_getElem? hplace)).exists_lookup? hlocals
    exact ⟨type, d, hplace, LocalTypes.find?_eq_some_iff.mpr ⟨hlookup, hdigest⟩⟩
  generalize r.placed = placed at hown
  induction placed with
  | nil => exact ⟨[], .nil⟩
  | cons p rest ih =>
    obtain ⟨⟨type, htype⟩, hrest⟩ := List.forall_mem_cons.mp hown
    obtain ⟨types, htypes⟩ := ih hrest
    exact ⟨type :: types, .cons htype htypes⟩

/-- The own type at a place depends on the entries only. -/
theorem Own.of_entries_eq (hlocals : locals.Consistent ds)
    (hentries : table.entries = table'.entries)
    (hbinds : ∀ d ∈ table'.descriptors, locals.Binds d) {p : PlacedEntry} {type : RuntimeType}
    (h : Own locals table p type) : Own locals table' p type := by
  obtain ⟨d, hplace, hfind⟩ := h
  have hentry : table.entries[p.place]? = some (.ofDescriptor d) := by
    rw [SchemaTable.entries, List.getElem?_map, hplace, Option.map_some]
  rw [hentries, SchemaTable.entries, List.getElem?_map, Option.map_eq_some_iff] at hentry
  obtain ⟨d', hplace', hsame⟩ := hentry
  have hname : d'.name = d.name := congrArg SchemaEntry.name hsame
  obtain ⟨type', hlookup', hdigest'⟩ :=
    (hbinds d' (List.mem_of_getElem? hplace')).exists_lookup? hlocals
  obtain ⟨hlookup, -⟩ := LocalTypes.find?_eq_some_iff.mp hfind
  obtain rfl : type' = type := by
    rw [hname, hlookup, Option.some_inj] at hlookup'
    exact hlookup'.symm
  exact ⟨d', hplace', LocalTypes.find?_eq_some_iff.mpr ⟨hlookup', hdigest'⟩⟩

end Resolver

/-! ## Encodings of relabelings -/

namespace Encoder

variable {S : Settings} {locals : LocalTypes} {ds : Set Descriptor} {g g' : ObjectGraph}
  {root root' : Value} {image : Handle → Handle} {envelope envelope' : Envelope}
  {codecs codecs' : CodecCache} {after after' : Encoding}

/-- A relabeling can be written alike. -/
theorem rewrites_of_isRelabeling (hlocals : locals.Consistent ds)
    (htypes : ∀ t, g.Uses root t → t ∈ locals.types)
    (htypes' : ∀ t, g'.Uses root' t → t ∈ locals.types)
    (h : g.IsRelabeling root g' root' image) :
    Rewrites ⟨S, locals, g⟩ ⟨S, locals, g'⟩ root root'
      (fun a b => g.Reaches root (.object a) ∧ image a = b) Eq where
  inline _ := rfl
  depth := Nat.le_refl _
  origin a a' b ha ha' := h.bijective.injOn ha.1 ha'.1 (ha.2.trans ha'.2.symm)
  shared a b b' _ hb hb' := hb.2.symm.trans hb'.2
  object a b hlink o hget := by
    obtain ⟨hreach, rfl⟩ := hlink
    refine ⟨o.relabel image, ?_, Instance.copies_relabel fun v hv k hk => ⟨?_, rfl⟩⟩
    · rw [h.object a hreach, hget, Option.map_some]
    · exact hreach.trans (.field hget hv (ObjectGraph.reaches_of_holds hk))
  keeps := SchemaTable.keeps_eq
  closure t t' ht ht' htwin := by
    rw [hlocals.eq_of_name_eq (htypes t ht) (htypes' t' ht') htwin.alike.name]
    exact List.forall₂_same.mpr fun _ _ => rfl

/-- **Handles do not matter.** A relabeling has the same envelope. -/
theorem eq_of_isRelabeling (hlocals : locals.Consistent ds) (hgraph : g.WellFormed)
    (hgraph' : g'.WellFormed) (htypes : ∀ t, g.Uses root t → t ∈ locals.types)
    (htypes' : ∀ t, g'.Uses root' t → t ∈ locals.types)
    (hwrite : writeRoot ⟨S, locals, g⟩ root (Encoding.start codecs) = .ok envelope after)
    (hwrite' : writeRoot ⟨S, locals, g'⟩ root' (Encoding.start codecs') = .ok envelope' after')
    (h : g.IsRelabeling root g' root' image) : envelope = envelope' := by
  have hcopies : root.Copies (fun a b => g.Reaches root (.object a) ∧ image a = b) root' := by
    rw [h.root_eq]
    exact root.copies_relabel fun k hk => ⟨ObjectGraph.reaches_of_holds hk, rfl⟩
  obtain ⟨t, hrun, hmatches⟩ := writeRoot_rewrites hgraph hgraph'
    (rewrites_of_isRelabeling hlocals htypes htypes' h) hcopies hwrite codecs'
  cases hwrite'.symm.trans hrun
  have hschema := schema_of_writeRoot hwrite
  rw [hmatches.entries_of_eq] at hschema
  exact congrArg (Envelope.mk envelope.payload) hschema

/-- A decoding with the own types of the schema receives what was written, if it takes lists of any
length that can be written. -/
theorem exists_copy_of_own (hlocals : locals.Consistent ds) (hinline : S.inlineTypes = [])
    (hgraph : g.WellFormed) (htypes : ∀ t, g.Uses root t → t ∈ locals.types)
    (hwrite : writeRoot ⟨S, locals, g⟩ root (Encoding.start codecs) = .ok envelope after)
    {types : List RuntimeType} (hown : List.Forall₂ (Resolver.Own locals after.schema)
      (Resolver.placed ⟨envelope.schema, locals, S.maxDepth⟩) types) :
    ∃ w s image, Decoder.readRoot ⟨{ S with maxListLength := 2 ^ 32 }, types⟩
        ⟨Progress.start envelope.payload, .empty⟩ = .ok w s ∧ g.IsCopy root s.graph w image := by
  have hfollows := follows_of_writeRoot (e := ⟨S, locals, g⟩) hgraph hwrite
  have hschema := schema_of_writeRoot hwrite
  have hshort : ∀ items, g.Reaches root (.list items) → items.length ≤ 2 ^ 32 := fun items hitems =>
    Nat.le_of_lt (hfollows.admits root (List.mem_singleton_self root) _ hitems).lengthFits
  have hreceives : Decoder.Receives ⟨{ S with maxListLength := 2 ^ 32 }, types⟩ ⟨S, locals, g⟩ root
      after.schema :=
    receives_of_own (e := ⟨S, locals, g⟩) hlocals htypes hfollows.consistent.schema hshort hschema
      hown
  have hdepth : S.maxDepth ≤ { S with maxListLength := 2 ^ 32 }.maxDepth := Nat.le_refl _
  exact exists_copy_of_readRoot hgraph hinline hdepth hwrite hreceives .empty

/-- **Nothing else is lost.** Graphs with one envelope are relabelings of each other: it is read to
a copy of both. -/
theorem exists_isRelabeling (hlocals : locals.Consistent ds) (hinline : S.inlineTypes = [])
    (hgraph : g.WellFormed) (hgraph' : g'.WellFormed)
    (htypes : ∀ t, g.Uses root t → t ∈ locals.types)
    (htypes' : ∀ t, g'.Uses root' t → t ∈ locals.types)
    (hwrite : writeRoot ⟨S, locals, g⟩ root (Encoding.start codecs) = .ok envelope after)
    (hwrite' : writeRoot ⟨S, locals, g'⟩ root' (Encoding.start codecs') = .ok envelope after') :
    ∃ image, g.IsRelabeling root g' root' image := by
  have hsound := sound_of_writeRoot (e := ⟨S, locals, g⟩) hgraph hwrite
  have hsound' := sound_of_writeRoot (e := ⟨S, locals, g'⟩) hgraph' hwrite'
  have hschema := schema_of_writeRoot hwrite
  have hschema' := schema_of_writeRoot hwrite'
  obtain ⟨types, hown⟩ := Resolver.exists_own (r := ⟨envelope.schema, locals, S.maxDepth⟩) hlocals
    hschema (hlocals.binds_of_sound htypes hsound)
  have hown' := hown.imp fun _ _ h =>
    h.of_entries_eq hlocals (hschema.symm.trans hschema') (hlocals.binds_of_sound htypes' hsound')
  obtain ⟨w, s, image, hread, hcopy⟩ :=
    exists_copy_of_own hlocals hinline hgraph htypes hwrite hown
  obtain ⟨w', s', image', hread', hcopy'⟩ :=
    exists_copy_of_own hlocals hinline hgraph' htypes' hwrite' hown'
  cases hread.symm.trans hread'
  exact hcopy.exists_relabeling hcopy' fun t t' u ht ht' htwin htwin' =>
    hlocals.eq_of_twins (htypes t ht) (htypes' t' ht') htwin htwin'

end Encoder

namespace Endpoint

/-- **Canonical encodings.** Without inline types two graphs of registered types that can be encoded
have the same envelope exactly when one is a relabeling of the other, as far as the roots lead: when
the objects that are met correspond one to one, and have the same types and the same fields but for
their handles. -/
theorem eq_iff_exists_isRelabeling {S : Settings} {s s' t t' : Endpoint} {g g' : ObjectGraph}
    {root root' : Value} {envelope envelope' : Envelope} (hlocals : s.locals.Reached Set.univ)
    (hsame : s'.locals = s.locals) (hinline : S.inlineTypes = []) (hg : g.Built) (hg' : g'.Built)
    (htypes : ∀ type, g.Uses root type → type ∈ s.locals.types)
    (htypes' : ∀ type, g'.Uses root' type → type ∈ s.locals.types)
    (hrun : encode S g root s = .ok envelope t)
    (hrun' : encode S g' root' s' = .ok envelope' t') :
    envelope = envelope' ↔ ∃ image, g.IsRelabeling root g' root' image := by
  obtain ⟨after, hwrite, -⟩ := encode_eq_ok_iff.mp hrun
  obtain ⟨after', hwrite', -⟩ := encode_eq_ok_iff.mp hrun'
  rw [hsame] at hwrite'
  constructor
  · rintro rfl
    exact Encoder.exists_isRelabeling hlocals.consistent hinline hg.wellFormed hg'.wellFormed htypes
      htypes' hwrite hwrite'
  · rintro ⟨image, h⟩
    exact Encoder.eq_of_isRelabeling hlocals.consistent hg.wellFormed hg'.wellFormed htypes htypes'
      hwrite hwrite' h

/-- Two cells without values. -/
def twoCells : ObjectGraph := ⟨#[⟨cellType, [.null]⟩, ⟨cellType, [.null]⟩]⟩

theorem built_twoCells : twoCells.Built := by
  have hfirst : ObjectGraph.empty.instantiate cellType [.null] =
      .ok (⟨0⟩, ⟨#[⟨cellType, [.null]⟩]⟩) := rfl
  have hsecond : ObjectGraph.instantiate ⟨#[⟨cellType, [.null]⟩]⟩ cellType [.null] =
      .ok (⟨1⟩, twoCells) := rfl
  exact .instantiate (.instantiate .empty hfirst) hsecond

theorem uses_twoCells {handles : List Handle} {t : RuntimeType}
    (h : twoCells.Uses (.list (handles.map .object)) t) : t = cellType := by
  have hobject : ∀ k o, twoCells.get? k = some o → o = ⟨cellType, [.null]⟩ := by
    intro k o hget
    simpa [twoCells] using Array.mem_of_getElem? hget
  obtain ⟨_, hv, huses⟩ := ObjectGraph.uses_list_iff.mp h
  obtain ⟨k, -, rfl⟩ := List.mem_map.mp hv
  cases hget : twoCells.get? k with
  | none =>
    rcases huses with ⟨hreach, hget'⟩ | hreach
    · cases hreach with
      | self => cases hget.symm.trans hget'
      | field hget' => cases hget.symm.trans hget'
    · cases hreach with
      | field hget' => cases hget.symm.trans hget'
  | some o =>
    rcases (ObjectGraph.uses_object_iff hget).mp huses with rfl | ⟨v, hv, huses⟩
    · rw [hobject k o hget]
    · rw [hobject k o hget, List.mem_singleton] at hv
      subst hv
      exact absurd huses ObjectGraph.not_uses_null

/-- Two cells on the wire. -/
def twoCellsEnvelope : Envelope where
  payload :=
    [0x10, 2, 0, 0, 0] ++ [0x12, 0, 0, 0, 0, 1, 0, 0, 0, 0x00] ++
      [0x12, 0, 0, 0, 0, 1, 0, 0, 0, 0x00]
  schema := [.ofDescriptor cell]

/-- A cell that is met twice, on the wire. -/
def sharedCellEnvelope : Envelope where
  payload := [0x10, 2, 0, 0, 0] ++ [0x12, 0, 0, 0, 0, 1, 0, 0, 0, 0x00] ++ [0x14, 0, 0, 0, 0]
  schema := [.ofDescriptor cell]

/-- The order of two cells does not matter, but one cell in the place of both does. -/
theorem eq_iff_exists_isRelabeling_twoCells :
    (∃ image, twoCells.IsRelabeling (.list [.object ⟨0⟩, .object ⟨1⟩]) twoCells
      (.list [.object ⟨1⟩, .object ⟨0⟩]) image) ∧
    ¬ ∃ image, twoCells.IsRelabeling (.list [.object ⟨0⟩, .object ⟨1⟩]) twoCells
      (.list [.object ⟨0⟩, .object ⟨0⟩]) image := by
  have hlocals : cellLocals.Reached Set.univ := reached_cellLocals (Set.mem_univ cell)
  have htypes : ∀ (handles : List Handle) type,
      twoCells.Uses (.list (handles.map .object)) type → type ∈ cellLocals.types :=
    fun handles type htype => uses_twoCells htype ▸ List.mem_singleton_self _
  obtain ⟨t, hrun⟩ : ∃ t, encode .standard twoCells (.list [.object ⟨0⟩, .object ⟨1⟩])
      ⟨cellLocals, .empty 0, .empty⟩ = .ok twoCellsEnvelope t :=
    Step.exists_of_outcome (by decide +kernel)
  obtain ⟨u, hswapped⟩ : ∃ u, encode .standard twoCells (.list [.object ⟨1⟩, .object ⟨0⟩])
      ⟨cellLocals, .empty 0, .empty⟩ = .ok twoCellsEnvelope u :=
    Step.exists_of_outcome (by decide +kernel)
  obtain ⟨v, hshared⟩ : ∃ v, encode .standard twoCells (.list [.object ⟨0⟩, .object ⟨0⟩])
      ⟨cellLocals, .empty 0, .empty⟩ = .ok sharedCellEnvelope v :=
    Step.exists_of_outcome (by decide +kernel)
  constructor
  · exact (eq_iff_exists_isRelabeling hlocals rfl rfl built_twoCells built_twoCells
      (htypes [⟨0⟩, ⟨1⟩]) (htypes [⟨1⟩, ⟨0⟩]) hrun hswapped).mp rfl
  · intro hrelabeling
    have hsame := (eq_iff_exists_isRelabeling hlocals rfl rfl built_twoCells built_twoCells
      (htypes [⟨0⟩, ⟨1⟩]) (htypes [⟨0⟩, ⟨0⟩]) hrun hshared).mpr hrelabeling
    exact absurd (congrArg Envelope.payload hsame) (by decide)

end Endpoint

end ObjectEnvelope
