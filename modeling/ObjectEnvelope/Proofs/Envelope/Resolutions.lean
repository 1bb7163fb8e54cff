import ObjectEnvelope.Proofs.Envelope.Steady

/-!
# Schema resolutions

What a resolution may be relied on for, whatever types the receiver has: it refuses schemas in which
an entry depends on itself, it refuses none for what its entries depend on as long as chains are
short, and the types that it finds are those that the entries declare one below the other
(`SchemaEntry.Resolves`).
-/

namespace ObjectEnvelope

namespace SchemaEntry

/-- The supertype of a name: the descriptor of the type that was found for the entry of that name,
or, only if there is no such entry, that of the local type. -/
inductive Supertype (schema : List SchemaEntry) (locals : LocalTypes) (types : List RuntimeType) :
    Option String → Option Descriptor → Prop
  | top : Supertype schema locals types none none
  | described {place : Nat} {above : SchemaEntry} {type : RuntimeType}
      (hentry : schema[place]? = some above) (htype : types[place]? = some type) :
      Supertype schema locals types (some above.name) (some type.descriptor)
  | registered {name : String} {type : RuntimeType} (hnone : ∀ other ∈ schema, other.name ≠ name)
      (hlookup : locals.lookup? name = some type) :
      Supertype schema locals types (some name) (some type.descriptor)

/-- The type has the name of the entry and the digest of the descriptor that the entry declares
below its supertype, and it is the local type of that name and digest, or, only if there is none, a
synthesized one. -/
def ResolvesTo (schema : List SchemaEntry) (locals : LocalTypes) (types : List RuntimeType)
    (entry : SchemaEntry) (type : RuntimeType) : Prop :=
  type.name = entry.name ∧ ∃ parent d, Supertype schema locals types entry.parent? parent ∧
    Descriptor.declare entry.declaration parent = .ok d ∧ type.descriptor.digest = d.digest ∧
    (locals.find? d = some type ∨ locals.find? d = none ∧ type.origin = .synthesized)

/-- The types are those of the entries, in order. -/
def Resolves (schema : List SchemaEntry) (locals : LocalTypes) (types : List RuntimeType) : Prop :=
  List.Forall₂ (ResolvesTo schema locals types) schema types

end SchemaEntry

namespace Resolver

open SchemaEntry

variable {r : Resolver} {cache now : SynthesisCache} {types : List RuntimeType}

/-- Types that stand for the entries are found for them. -/
theorem resolves_of_standsFor {ds : Set Descriptor} (hnames : (r.schema.map (·.name)).Nodup)
    (hlocals : r.locals.Consistent ds) (hnow : now.Indexed)
    (htypes : List.Forall₂ (fun p type => r.StandsFor cache now p.entry type) r.placed types) :
    Resolves r.schema r.locals types := by
  have hentries : List.Forall₂ (r.StandsFor cache now) r.schema types := by
    rw [← map_entry_placed, List.forall₂_map_left_iff]
    exact htypes
  -- the supertype that an entry is declared below is that of a type that was found
  have hparent : ∀ entry d, Declares r.schema r.locals cache entry d → ∃ parent,
      Supertype r.schema r.locals types entry.parent? parent ∧
        Descriptor.declare entry.declaration parent = .ok d := by
    intro entry d hd
    cases hd with
    | top hup hdeclare => exact ⟨none, hup ▸ .top, hdeclare⟩
    | @under _ above b p _ hup hmem habove hp hdeclare =>
      obtain ⟨place, hplace⟩ := List.mem_iff_getElem?.mp hmem
      obtain ⟨hlt, hget⟩ := List.getElem?_eq_some_iff.mp hplace
      have hlt' : place < types.length := hentries.length_eq ▸ hlt
      obtain ⟨b', hb', hp', -⟩ := hentries.get hlt hlt'
      rw [List.get_eq_getElem, hget] at hb'
      obtain rfl := habove.unique hnames hb'
      obtain rfl := hp.unique hp'
      exact ⟨_, hup ▸ .described hplace (List.getElem?_eq_getElem hlt'), hdeclare⟩
    | underLocal hup hnone hlookup hdeclare =>
      exact ⟨_, hup ▸ .registered hnone hlookup, hdeclare⟩
  refine hentries.imp fun entry type htype => ?_
  obtain ⟨d, hd, hrepresents, hserves⟩ := htype
  obtain ⟨parent, hsuper, hdeclare⟩ := hparent entry d hd
  refine ⟨hrepresents.name.trans hd.name, parent, d, hsuper, hdeclare,
    hrepresents.digest hlocals, ?_⟩
  exact hserves.imp_right fun h => ⟨h.1, hnow.origin type h.2⟩

/-- **Schema resolution.** Over any local types and any synthesized ones, a resolution of a schema
that has each name once fails when an entry depends on itself; within the chain limit it does not
fail for what entries depend on; and when it succeeds, the types are those that the entries
declare. -/
theorem resolveAll_outcome (hnames : (r.schema.map (·.name)).Nodup)
    (hlocals : r.locals.Reached Set.univ) (hcache : cache.Attained) :
    ((∃ a, Relation.TransGen (Depends r.schema) a a) →
      ∃ e t, r.resolveAll ⟨cache, []⟩ = .error e t) ∧
    (WithinChains r.schema r.maxChain → ∀ e t, r.resolveAll ⟨cache, []⟩ = .error e t →
      ¬ e.OfDependencies) ∧
    ∀ types t, r.resolveAll ⟨cache, []⟩ = .ok types t → Resolves r.schema r.locals types := by
  have hconsistent := hlocals.consistent
  have hyields := yields_standing hnames hconsistent hcache.indexed
  refine ⟨fun hcycle => ?_, fun hchains e t hrun => ?_, fun types t hrun => ?_⟩
  · obtain ⟨a, hcycle⟩ := hcycle
    rcases hyields with ⟨types, t, -, ⟨-, hacyclic⟩, -⟩ | ⟨e, t, hrun, -⟩
    · exact absurd hcycle (hacyclic a)
    · exact ⟨e, t, hrun⟩
  · rcases hyields with ⟨types, u, hrun', -⟩ | ⟨f, u, hrun', hrefused | ⟨-, hf⟩⟩
    · cases hrun.symm.trans hrun'
    · exact absurd hrefused (not_refusal hchains f)
    · cases hrun.symm.trans hrun'
      exact hf
  · obtain ⟨-, hindexed, htypes⟩ := hyields.of_ok hrun
    exact resolves_of_standsFor hnames hconsistent hindexed htypes

/-- What has an identifier. -/
def tagged : Descriptor :=
  ⟨Declaration.toLevel ⟨"Tagged", .composite, [.mandatory "id" (.primitive (.scalar .u32))], []⟩
    [], [], Declaration.sealed_toLevel (by decide) (by decide) trivial⟩

/-- What is registered where only tagged objects are known. -/
def taggedLocals : LocalTypes :=
  ⟨0, [.ofDescriptor ⟨.known, 0, 0⟩ tagged.digest tagged (by decide)]⟩

/-- A leaf is a node, and a node is tagged; the leaf comes first. -/
def nodes : Resolver where
  schema := [⟨"Leaf", .composite, some "Node", [], [.anything "value"]⟩,
    ⟨"Node", .composite, some "Tagged", [], []⟩]
  locals := taggedLocals
  maxChain := 2

theorem reached_taggedLocals : taggedLocals.Reached Set.univ := by
  have hregister : LocalTypes.register tagged (.empty 0) = .ok _ taggedLocals := rfl
  rw [← Step.after_of_ok hregister]
  exact .register (.empty 0) fun d _ => Set.mem_univ d

/-- Nodes and leaves are declared one below the other, below the local type. -/
theorem resolveAll_outcome_nodes : ∃ types t,
    nodes.resolveAll ⟨.empty 1, []⟩ = .ok types t ∧
      Resolves nodes.schema taggedLocals types := by
  obtain ⟨types, t, hrun⟩ : ∃ types t, nodes.resolveAll ⟨.empty 1, []⟩ = .ok types t :=
    Step.exists_of_succeeds (by decide +kernel)
  have houtcome := resolveAll_outcome (r := nodes) (by decide) reached_taggedLocals
    (.empty 1 Descriptor.digest)
  exact ⟨types, t, hrun, houtcome.2.2 types t hrun⟩

end Resolver

end ObjectEnvelope
