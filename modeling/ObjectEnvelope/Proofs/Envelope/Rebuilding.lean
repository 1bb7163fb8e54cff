import ObjectEnvelope.Proofs.Envelope.Resolving
import ObjectEnvelope.Proofs.Payload.SchemaTables
import ObjectEnvelope.Proofs.Schema.Declaring
import ObjectEnvelope.Proofs.Types.Syntheses

/-!
# Rebuilding types

The entries of a schema table are resolved to types with the digests of the descriptors that the
table holds. A descriptor is declared again, below the supertype that was resolved before it, and
its digest hangs on nothing but its declaration and the digest of that supertype.
-/

namespace ObjectEnvelope

/-! ## Entries of a table -/

namespace Resolver

variable {r : Resolver} {table : SchemaTable} {p q : PlacedEntry} {s : Resolution}
  {d e : Descriptor}

theorem mem_placed_entries_iff (hschema : r.schema = table.entries) :
    p ∈ r.placed ↔ ∃ d, table.descriptors[p.place]? = some d ∧ p.entry = .ofDescriptor d := by
  rw [mem_placed_iff, hschema, SchemaTable.entries, List.getElem?_map, Option.map_eq_some_iff]
  exact exists_congr fun d => and_congr_right fun _ => eq_comm

/-- A held descriptor has an entry of its name and its digest. -/
theorem exists_entry? (hschema : r.schema = table.entries)
    (hnames : (table.descriptors.map (·.name)).Nodup) (hheld : table.Held d) :
    ∃ q ∈ r.placed, ∃ e, r.entry? d.name = some q ∧ table.descriptors[q.place]? = some e ∧
      e.name = d.name ∧ e.digest = d.digest := by
  obtain ⟨e, he, hname, hdigest⟩ := hheld
  have hmem : SchemaEntry.ofDescriptor e ∈ r.schema := hschema ▸ List.mem_map.mpr ⟨e, he, rfl⟩
  obtain ⟨q, hentry⟩ := exists_entry?_of_mem hmem
  obtain ⟨hq, hqname⟩ := mem_of_entry?_eq_some hentry
  obtain ⟨e', he', hentry'⟩ := (mem_placed_entries_iff hschema).mp hq
  rw [hentry'] at hqname
  obtain rfl : e' = e :=
    List.inj_on_of_nodup_map hnames (List.mem_of_getElem? he') he hqname
  exact ⟨q, hq, e', hname ▸ hentry, he', hname, hdigest⟩

/-- The descriptor of an entry is declared below the descriptor that was resolved for the entry of
its supertype. -/
theorem exists_describe (hschema : r.schema = table.entries)
    (hnames : (table.descriptors.map (·.name)).Nodup)
    (hparents : ∀ d ∈ table.descriptors, ∀ p, d.parent? = some p → table.Held p)
    (hd : d ∈ table.descriptors)
    (hneeds : ∀ q ∈ r.needs (.ofDescriptor d), (s.typeAt? q.place).isSome) :
    ∃ parent, r.describe s (.ofDescriptor d) =
        Descriptor.declare ⟨d.name, d.kind, d.fields, d.interfaces⟩ parent ∧
      Option.Rel (fun a p => ∃ q ∈ r.placed, ∃ type e, s.typeAt? q.place = some type ∧
        a = type.descriptor ∧ table.descriptors[q.place]? = some e ∧ e.digest = p.digest)
        parent d.parent? := by
  cases hparent : d.parent? with
  | none =>
    have hup : (SchemaEntry.ofDescriptor d).parent? = none := by
      rw [SchemaEntry.ofDescriptor, hparent, Option.map_none]
    exact ⟨none, describe_of_parent?_eq_none s hup, .none⟩
  | some p =>
    obtain ⟨q, hq, e, hentry, he, -, hdigest⟩ :=
      exists_entry? hschema hnames (hparents d hd p hparent)
    have hup : (SchemaEntry.ofDescriptor d).parent? = some p.name := by
      rw [SchemaEntry.ofDescriptor, hparent, Option.map_some]
    obtain ⟨type, htype, hrun⟩ := exists_describe_of_parent? hup hentry hneeds
    exact ⟨some type.descriptor, hrun, .some ⟨q, hq, type, e, htype, rfl, he, hdigest⟩⟩

/-- The entries are resolved in order: at the place of a name is the type that was found for it. -/
theorem exists_of_index? (hschema : r.schema = table.entries)
    {wanted : PlacedEntry → RuntimeType → Prop} {types : List RuntimeType}
    (htypes : List.Forall₂ wanted r.placed types) {name : String} {index : Nat}
    (hindex : table.index? name = some index) :
    ∃ d type, table.descriptors[index]? = some d ∧ d.name = name ∧ types[index]? = some type ∧
      wanted ⟨.ofDescriptor d, index⟩ type := by
  obtain ⟨hlt, hname, -⟩ := List.findIdx?_eq_some_iff_getElem.mp hindex
  have hplace : table.descriptors[index]? = some table.descriptors[index] :=
    List.getElem?_eq_getElem hlt
  have hentry : r.placed[index]? = some ⟨.ofDescriptor table.descriptors[index], index⟩ := by
    rw [getElem?_placed, hschema, SchemaTable.entries, List.getElem?_map, hplace]
    rfl
  obtain ⟨hlt', hplaced⟩ := List.getElem?_eq_some_iff.mp hentry
  have hlt'' : index < types.length := htypes.length_eq ▸ hlt'
  have hwanted := htypes.get hlt' hlt''
  rw [List.get_eq_getElem, hplaced] at hwanted
  exact ⟨_, types[index], hplace, beq_iff_eq.mp hname, List.getElem?_eq_getElem hlt'', hwanted⟩

/-! ## Types of entries -/

/-- The type has the digest of the descriptor at its place, and is described alike. -/
def Rebuilt (table : SchemaTable) (p : PlacedEntry) (type : RuntimeType) : Prop :=
  ∃ d, table.descriptors[p.place]? = some d ∧ type.digest = d.digest ∧ type.descriptor.Alike d

/-- A known descriptor that can be laid out has a type, whether local or synthesized. -/
theorem exists_typeOf {ds : Set Descriptor} (hds : CollisionFree ds)
    (hlocals : r.locals.Reached ds) (hs : s.synthesis.Genuine ds) (hd : d.Known ds)
    (hadmissible : d.Admissible) :
    ∃ type synthesis, r.typeOf d s = .ok type ⟨synthesis, s.resolved⟩ ∧ synthesis.Genuine ds ∧
      type.digest = d.digest ∧ type.descriptor.Alike d := by
  unfold typeOf
  cases hfind : r.locals.find? d with
  | some type =>
    obtain ⟨hlookup, hdigest⟩ := LocalTypes.find?_eq_some_iff.mp hfind
    have htype := hlocals.consistent.genuine hds (LocalTypes.mem_of_lookup? hlookup).1
    exact ⟨type, s.synthesis, rfl, hs, hdigest, htype.isKnown.alike hds hd hdigest⟩
  | none =>
    have hlocal : HonestLookup ds fun ancestor => (r.locals.find? ancestor).isSome :=
      fun e he => ⟨r.locals, hlocals, Option.isSome_iff_exists.mp he⟩
    obtain ⟨type, synthesis, hrun, hsynthesis, htype⟩ :=
      hs.exists_synthesize hds hlocal hd hadmissible
    exact ⟨type, synthesis, Step.on_eq_ok_iff.mpr ⟨synthesis, hrun, rfl⟩, hsynthesis, htype⟩

/-- **Rebuilding.** The entries of a table of known descriptors can be built wherever digests do not
collide. -/
theorem builds_rebuilt {ds : Set Descriptor} (hds : CollisionFree ds)
    (hlocals : r.locals.Reached ds) (hschema : r.schema = table.entries)
    (hnames : (table.descriptors.map (·.name)).Nodup)
    (hparents : ∀ d ∈ table.descriptors, ∀ p, d.parent? = some p → table.Held p)
    (hknown : ∀ d ∈ table.descriptors, d.Known ds ∧ d.Admissible) :
    r.Builds (Rebuilt table) (·.Genuine ds) := by
  intro p hp s hs hneeds
  obtain ⟨d, hplace, hentry⟩ := (mem_placed_entries_iff hschema).mp hp
  have hd := List.mem_of_getElem? hplace
  obtain ⟨hdknown, hadmissible⟩ := hknown d hd
  rw [hentry] at hneeds
  obtain ⟨parent, hdescribe, hrel⟩ := exists_describe hschema hnames hparents hd hneeds
  -- the resolved supertype is like the one that the sender had
  have hparent : Option.Rel Descriptor.Alike parent d.parent? := by
    cases hup : d.parent? with
    | none =>
      rw [hup] at hrel
      cases hrel
      exact .none
    | some above =>
      rw [hup] at hrel
      cases hrel with
      | some h =>
        obtain ⟨q, hq, type, e, htype, rfl, he, hdigest⟩ := h
        obtain ⟨e', he', -, halike⟩ := hs.2 q hq type htype
        obtain rfl : e' = e := Option.some_inj.mp (he'.symm.trans he)
        have hknown' := (hknown e' (List.mem_of_getElem? he)).1
        have habove := hdknown.of_mem_lineage (Descriptor.mem_lineage_of_parent? hup)
        exact .some (halike.trans (hknown'.alike hds habove hdigest))
  have hdigests : Option.Rel (fun a p => a.digest = p.digest) parent d.parent? := by
    generalize d.parent? = above at hparent
    cases hparent with
    | none => exact .none
    | some h => exact .some h.digest
  obtain ⟨d', hdeclare, -, hdigest, halike⟩ := d.exists_redeclare hdigests
  have hlike := halike hparent
  obtain ⟨type, synthesis, htypeOf, hsynthesis, htype, htypelike⟩ :=
    exists_typeOf hds hlocals hs.1 (hdknown.of_alike hlike) (hadmissible.of_alike hlike)
  refine ⟨type, synthesis, ?_, hsynthesis, d, hplace, htype.trans hdigest, htypelike.trans hlike⟩
  exact build_eq_ok (hentry ▸ hdescribe.trans hdeclare) htypeOf

end Resolver

end ObjectEnvelope
