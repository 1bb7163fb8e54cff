import ObjectEnvelope.Proofs.Envelope.Rebuilding
import ObjectEnvelope.Proofs.Envelope.Verdicts
import ObjectEnvelope.Proofs.Types.Caches

/-!
# Rebuilding word for word

A receiver without local types makes all types of a schema from its entries, so the types read as
the entries do, down to the order in which interfaces are listed. A cached type may stand in for a
descriptor of its digest, but it was made for an entry of the same name, and a schema has each name
once (`Resolver.quoted_of_build`).
-/

namespace ObjectEnvelope

/-- The type and its supertypes read as entries of the schema do. -/
def Descriptor.Verbatim (schema : List SchemaEntry) (d : Descriptor) : Prop :=
  ∀ e ∈ d.lineage, SchemaEntry.ofDescriptor e ∈ schema

variable {schema : List SchemaEntry}

/-- What is declared for an entry reads as the entry does, below the supertype that it names. -/
theorem SchemaEntry.ofDescriptor_of_declare {entry : SchemaEntry} {parent : Option Descriptor}
    {d : Descriptor} (hinterfaces : entry.interfaces.Nodup)
    (hparent : entry.parent? = parent.map (·.name))
    (h : Descriptor.declare ⟨entry.name, entry.kind, entry.fields, entry.interfaces⟩ parent =
      .ok d) : SchemaEntry.ofDescriptor d = entry ∧ d.parent? = parent := by
  rcases Descriptor.declare_cases ⟨entry.name, entry.kind, entry.fields, entry.interfaces⟩ parent
    with ⟨field, -, herror⟩ | ⟨d', hok, habove, hlevel⟩
  · rw [h] at herror
    cases herror
  · obtain rfl : d = d' := Except.ok.inj (h.symm.trans hok)
    have hup : d.parent? = parent := Descriptor.parent?_eq_of_above habove
    refine ⟨?_, hup⟩
    rw [SchemaEntry.ofDescriptor, hup, ← hparent, Descriptor.name, Descriptor.kind,
      Descriptor.interfaces, Descriptor.fields, hlevel, Declaration.toLevel,
      eraseDups_eq_self hinterfaces]

/-- A descriptor is verbatim with its supertype. -/
theorem Descriptor.Verbatim.of_parent? {d : Descriptor} (hd : SchemaEntry.ofDescriptor d ∈ schema)
    (hparent : ∀ p, d.parent? = some p → p.Verbatim schema) : d.Verbatim schema :=
  forall_mem_lineage_iff.mpr ⟨hd, hparent⟩

theorem Descriptor.Verbatim.of_mem_lineage {d e : Descriptor} (h : d.Verbatim schema)
    (he : e ∈ d.lineage) : e.Verbatim schema :=
  fun c hc => h c (lineage_subset he c hc)

namespace SynthesisCache

variable {cache after : SynthesisCache} {d : Descriptor} {t : RuntimeType}
  {isLocal : Descriptor → Bool}

/-- The types in the cache are verbatim. -/
def Verbatim (schema : List SchemaEntry) (cache : SynthesisCache) : Prop :=
  ∀ t ∈ cache.types, t.descriptor.Verbatim schema

theorem verbatim_empty (home : Nat) : Verbatim schema (.empty home) := by
  simp [Verbatim, empty]

/-- The type of a verbatim descriptor is verbatim and has its name. -/
theorem Verbatim.of_synthesizeOne (hcache : cache.Verbatim schema) (hd : d.Verbatim schema)
    (h : synthesizeOne d cache = .ok t after) :
    after.Verbatim schema ∧ t.descriptor.Verbatim schema ∧ t.name = d.name := by
  rcases synthesizeOne_cases h with ⟨ht, hsame, rfl⟩ | ⟨rfl, rfl⟩
  · exact ⟨hcache, hcache t ht, (Descriptor.same_iff.mp hsame).1.name⟩
  · refine ⟨?_, hd, rfl⟩
    rw [Verbatim, List.forall_mem_append, List.forall_mem_singleton]
    exact ⟨hcache, hd⟩

/-- So it is when missing supertypes are made first. -/
theorem Verbatim.of_synthesize (hcache : cache.Verbatim schema) (hd : d.Verbatim schema)
    (h : synthesize isLocal d cache = .ok t after) :
    after.Verbatim schema ∧ t.descriptor.Verbatim schema ∧ t.name = d.name := by
  obtain ⟨front, between, hfront, hloop, hone⟩ := synthesize_eq_ok_iff.mp h
  have hleaves : Step.Leaves (front.reverse.forM fun e => discard (synthesizeOne e)) cache
      (Verbatim schema) fun _ => True := by
    refine Step.leaves_reverse_forM (fun _ => Verbatim schema)
      (fun before e rest hsplit s hs => ⟨fun u s' hrun => ?_, fun _ _ _ => trivial⟩) hcache
    have he : e ∈ d.lineage := List.mem_cons_of_mem _
      (mem_of_missing hfront e (hsplit ▸ List.mem_append.mpr (.inr List.mem_cons_self)))
    exact (hs.of_synthesizeOne (hd.of_mem_lineage he) hrun).1
  have hbetween : between.Verbatim schema := hleaves.1 _ _ hloop
  exact hbetween.of_synthesizeOne hd hone

end SynthesisCache

namespace Resolver

variable {r : Resolver} {p : PlacedEntry} {s t : Resolution} {type : RuntimeType} {d : Descriptor}

/-- The type reads as its entry does, and its supertypes as entries of the schema do. -/
def Quoted (r : Resolver) (p : PlacedEntry) (type : RuntimeType) : Prop :=
  SchemaEntry.ofDescriptor type.descriptor = p.entry ∧ type.descriptor.Verbatim r.schema

theorem verbatim_of_typeOf (hlocals : ∀ e, r.locals.find? e = none)
    (hs : s.synthesis.Verbatim r.schema) (hd : d.Verbatim r.schema)
    (h : r.typeOf d s = .ok type t) :
    t.synthesis.Verbatim r.schema ∧ type.descriptor.Verbatim r.schema ∧ type.name = d.name := by
  unfold typeOf at h
  rw [hlocals] at h
  obtain ⟨after, hrun, rfl⟩ := Step.on_eq_ok_iff.mp h
  exact hs.of_synthesize hd hrun

/-- **Types are quoted.** Without local types, the type that is built for an entry reads as the
entry does. -/
theorem quoted_of_build (hlocals : ∀ e, r.locals.find? e = none)
    (hclosed : SchemaEntry.Closed r.schema)
    (hinterfaces : ∀ entry ∈ r.schema, entry.interfaces.Nodup) (hp : p ∈ r.placed)
    (hs : r.Sound r.Quoted (SynthesisCache.Verbatim r.schema) s)
    (hneeds : ∀ need ∈ r.needs p.entry, (s.typeAt? need.place).isSome)
    (h : r.build p s = .ok type t) :
    t.synthesis.Verbatim r.schema ∧ r.Quoted p type := by
  have hmem : p.entry ∈ r.schema := mem_schema_of_placed hp
  obtain ⟨d, u, hdescribe, htype, rfl⟩ := build_eq_ok_iff.mp h
  -- the supertype that was found for its entry is verbatim, and has its name
  obtain ⟨parent, hrun, hname, hparent⟩ : ∃ parent, r.describe s p.entry =
        Descriptor.declare ⟨p.entry.name, p.entry.kind, p.entry.fields, p.entry.interfaces⟩
          parent ∧
      p.entry.parent? = parent.map (·.name) ∧
      ∀ e, parent = some e → e.Verbatim r.schema := by
    cases hup : p.entry.parent? with
    | none => exact ⟨none, describe_of_parent?_eq_none s hup, rfl, nofun⟩
    | some name =>
      obtain ⟨above, habove, rfl⟩ := hclosed.parents p.entry hmem name hup
      obtain ⟨q, hq⟩ := exists_entry?_of_mem habove
      obtain ⟨hqplaced, hqname⟩ := mem_of_entry?_eq_some hq
      obtain ⟨found, hfound, hrun⟩ := exists_describe_of_parent? hup hq hneeds
      obtain ⟨hquoted, hverbatim⟩ := hs.2 q hqplaced found hfound
      refine ⟨some found.descriptor, hrun, ?_, fun e he => Option.some_inj.mp he ▸ hverbatim⟩
      rw [← hqname, ← hquoted]
      rfl
  rw [hrun] at hdescribe
  obtain ⟨hentry, hup⟩ :=
    SchemaEntry.ofDescriptor_of_declare (hinterfaces _ hmem) hname hdescribe
  have hd : d.Verbatim r.schema :=
    .of_parent? (hentry ▸ hmem) fun e he => hparent e (hup.symm.trans he)
  obtain ⟨hu, hverbatim, hsame⟩ := verbatim_of_typeOf hlocals hs.1 hd htype
  refine ⟨hu, ?_, hverbatim⟩
  have hself := hverbatim type.descriptor (Descriptor.mem_lineage_self _)
  refine List.inj_on_of_nodup_map hclosed.names hself hmem ?_
  rw [← hentry]
  exact hsame

end Resolver

/-- The entries of a table are those of a closed schema. -/
theorem SchemaTable.Sound.closed {locals : LocalTypes} {used : RuntimeType → Prop}
    {table : SchemaTable} (h : table.Sound locals used) : SchemaEntry.Closed table.entries := by
  refine ⟨?_, ?_⟩
  · rw [entries, List.map_map]
    exact h.names
  · rintro entry hentry name hname
    obtain ⟨d, hd, rfl⟩ := List.mem_map.mp hentry
    obtain ⟨p, hp, rfl⟩ := Option.map_eq_some_iff.mp hname
    obtain ⟨e, he, hname, -⟩ := h.parents d hd p hp
    exact ⟨_, List.mem_map.mpr ⟨e, he, rfl⟩, hname⟩

end ObjectEnvelope
