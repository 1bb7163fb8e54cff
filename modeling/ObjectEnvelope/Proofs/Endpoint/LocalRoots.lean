import ObjectEnvelope.Proofs.Endpoint.DecodedGraphs
import ObjectEnvelope.Proofs.Endpoint.Histories
import ObjectEnvelope.Proofs.Envelope.Provenance
import ObjectEnvelope.Proofs.Envelope.Resolutions

/-!
# Roots that pass for a local type

Where a local type is expected by its name, a root of that name must have its digest. But types
stand where their supertypes and interfaces are declared, and these are declared by name. A root of
another name passes with a supertype of the name, and this one may be a type of the schema instead
of the local type (`Endpoint.provenance_of_root`).
-/

namespace ObjectEnvelope

/-- An object or a constant uses its type. -/
theorem ObjectGraph.uses_of_typeOf? {g : ObjectGraph} {v : Value} {type : RuntimeType}
    (h : g.typeOf? v = some type) : g.Uses v type := by
  cases v with
  | object k =>
    obtain ⟨o, hget, rfl⟩ := Option.map_eq_some_iff.mp h
    exact .object (.self _) hget
  | constant c =>
    cases h
    exact .constant (.self _)
  | null | primitive | list => cases h

/-- A value that fits a declared type has a type that may stand there. -/
theorem ObjectGraph.Fits.accepts {g : ObjectGraph} {declared : ValueType} {v : Value}
    {type : RuntimeType} (h : g.Fits declared v) (htype : g.typeOf? v = some type) :
    type.accepts declared = true := by
  cases h with
  | object hget haccepts =>
    rw [typeOf?, hget] at htype
    cases htype
    exact haccepts
  | constant haccepts =>
    cases htype
    exact haccepts
  | null | primitive | list | anyList => cases htype

/-- A root of the name of a local type has its digest, unless there is a fault. -/
theorem LocalTypes.digest_of_rootFault? {locals : LocalTypes} {g : ObjectGraph} {root : Value}
    {name : String} {held type : RuntimeType}
    (h : locals.rootFault? g (.reference name) root = none)
    (hheld : locals.lookup? name = some held) (htype : g.typeOf? root = some type)
    (hname : type.name = name) : type.digest = held.digest := by
  simpa [rootFault?, htype, hheld, hname] using h

namespace Endpoint

variable {settings : Settings} {s t : Endpoint} {envelope : Envelope} {name : String}
  {d : DecodedGraph} {held type : RuntimeType}

/-- What is decoded has types that are held, and these are traced unless what is held collides. -/
theorem traced_of_decode {expected : ValueType} (hlocals : s.locals.Reached Set.univ)
    (hsynthesis : s.synthesis.Attained) (hdecode : decode settings envelope expected s = .ok d t)
    (htype : d.graph.Uses d.root type) :
    (t.synthesis.key = s.synthesis.key ∧ t.synthesis.Indexed) ∧ t.locals = s.locals ∧
      t.locals.Holds t.synthesis type ∧
      (CollisionFree (t.locals.heldWith t.synthesis) →
        Resolver.Traced ⟨envelope.schema, s.locals, settings.maxDepth⟩ type.descriptor) := by
  obtain ⟨types, u, after, hresolve, -, -, -, rfl⟩ := decode_eq_ok_iff.mp hdecode
  obtain ⟨-, hretraces⟩ := retraces_of_decode hresolve hdecode
  obtain ⟨resolution, hrun, rfl⟩ := resolve_eq_ok_iff.mp hresolve
  obtain ⟨hcache, hderived⟩ :=
    Resolver.derived_of_resolveAll hlocals.consistent hsynthesis.indexed hrun
  have hmem : type ∈ types :=
    hretraces.made.mem_of_uses (hretraces.parts _ (List.mem_singleton_self _)) htype
  exact ⟨hcache, rfl, hderived type hmem⟩

/-- The check of a root where a local type is expected: a root of its name has its digest, and any
other has the name above it or names it as an interface. -/
theorem root_of_decode (hheld : s.locals.lookup? name = some held)
    (hdecode : decode settings envelope (.reference name) s = .ok d t)
    (htype : d.graph.typeOf? d.root = some type) :
    (type.name = name → type.digest = held.digest) ∧
      ∃ e ∈ type.descriptor.lineage, e.name = name ∨ name ∈ e.interfaces := by
  obtain ⟨types, u, after, hresolve, -, -, hcheck, -⟩ := decode_eq_ok_iff.mp hdecode
  obtain ⟨resolution, -, rfl⟩ := resolve_eq_ok_iff.mp hresolve
  obtain ⟨hfault, -, hfits⟩ := LocalTypes.checkRoot_eq_ok_iff.mp hcheck
  exact ⟨LocalTypes.digest_of_rootFault? hfault hheld htype,
    RuntimeType.isAssignableTo_iff.mp (hfits.accepts htype)⟩

/-- **Roots of local types.** A root that was decoded where a local type was expected by its name
has the name and the digest of that type; or it has another name, and a supertype of the name, which
has the digest too unless an entry of the schema outlines it or digests collide; or it only names
the type as an interface, directly or through a supertype. -/
theorem provenance_of_root (hlocals : s.locals.Reached Set.univ) (hsynthesis : s.synthesis.Attained)
    (hheld : s.locals.lookup? name = some held)
    (hdecode : decode settings envelope (.reference name) s = .ok d t)
    (htype : d.graph.typeOf? d.root = some type) :
    (type.name = name ∧ type.digest = held.digest ∧
      (s.synthesis.key = Descriptor.digest → type.descriptor.digest = held.digest)) ∨
    (∃ e ∈ type.descriptor.ancestors, e.name = name ∧
      (CollisionFree (t.locals.heldWith t.synthesis) →
        e.digest = held.digest ∨ ∃ entry ∈ envelope.schema, entry.Outlines e)) ∨
    (∀ e ∈ type.descriptor.lineage, e.name ≠ name) ∧
      ∃ e ∈ type.descriptor.lineage, name ∈ e.interfaces := by
  have hconsistent := hlocals.consistent
  obtain ⟨⟨hkey, hindexed⟩, hsame, hholds, htraced⟩ :=
    traced_of_decode hlocals hsynthesis hdecode (ObjectGraph.uses_of_typeOf? htype)
  obtain ⟨hdigest, hassignable⟩ := root_of_decode hheld hdecode htype
  by_cases hself : type.name = name
  · refine .inl ⟨hself, hdigest hself, fun hstandard => ?_⟩
    rw [← hholds.digest (hsame ▸ hconsistent) hindexed (hkey.trans hstandard), hdigest hself]
  · by_cases hbelow : ∃ e ∈ type.descriptor.ancestors, e.name = name
    · obtain ⟨e, he, rfl⟩ := hbelow
      refine .inr (.inl ⟨e, he, rfl, fun hfree => ?_⟩)
      rcases htraced hfree e (List.mem_cons_of_mem _ he) with hentry | ⟨u, hu, hname, hbound⟩
      · exact .inr hentry
      · rw [← hname, hconsistent.lookup?_eq hu] at hheld
        obtain rfl := Option.some_inj.mp hheld
        exact .inl hbound.symm
    · have hnone : ∀ e ∈ type.descriptor.lineage, e.name ≠ name := by
        rw [Descriptor.lineage, List.forall_mem_cons]
        exact ⟨hself, fun e he hname => hbelow ⟨e, he, hname⟩⟩
      obtain ⟨e, he, hname | hinterface⟩ := hassignable
      · exact absurd hname (hnone e he)
      · exact .inr (.inr ⟨hnone, e, he, hinterface⟩)

open Resolver (tagged taggedLocals reached_taggedLocals)

/-- A node that is tagged as the local type says, which the schema does not repeat. -/
def nodeEnvelope : Envelope where
  payload := [0x12, 0, 0, 0, 0, 1, 0, 0, 0, 0x06, 7, 0, 0, 0]
  schema := [⟨"Node", .composite, some "Tagged", [], []⟩]

/-- The node passes for a tagged object, and it is one. -/
theorem provenance_of_root_node : ∃ d t type,
    decode .standard nodeEnvelope (.reference "Tagged") ⟨taggedLocals, .empty 1, .empty⟩ =
      .ok d t ∧ d.graph.typeOf? d.root = some type ∧
    ∃ e ∈ type.descriptor.ancestors, e.name = "Tagged" ∧ e.digest = tagged.digest := by
  let s : Endpoint := ⟨taggedLocals, .empty 1, .empty⟩
  obtain ⟨d, t, hdecode, hcheck⟩ := Step.exists_of_succeedsWith
    (show Step.succeedsWith (decode .standard nodeEnvelope (.reference "Tagged")) s (fun d t =>
      ((d.graph.typeOf? d.root).filter fun type => type.name = "Node" ∧
        ∃ e ∈ type.descriptor.ancestors, e.name = "Tagged").isSome ∧
      CollisionFree (t.locals.heldWith t.synthesis)) = true by decide +kernel)
  obtain ⟨hroot, hfree⟩ := of_decide_eq_true hcheck
  obtain ⟨type, hroot⟩ := Option.isSome_iff_exists.mp hroot
  obtain ⟨htype, hroot⟩ := Option.filter_eq_some_iff.mp hroot
  obtain ⟨hname, c, hc, hcname⟩ := of_decide_eq_true hroot
  refine ⟨d, t, type, hdecode, htype, ?_⟩
  rcases provenance_of_root (s := s) reached_taggedLocals (.empty 1 Descriptor.digest) rfl hdecode
    htype with ⟨hself, -⟩ | ⟨e, he, hename, hsource⟩ | ⟨hnone, -⟩
  · exact absurd (hname.symm.trans hself) (by decide)
  · refine ⟨e, he, hename, (hsource hfree).resolve_right ?_⟩
    rintro ⟨entry, hentry, houtlines⟩
    rw [List.mem_singleton.mp hentry] at houtlines
    exact absurd (houtlines.name.trans hename) (by decide)
  · exact absurd hcname (hnone c (List.mem_cons_of_mem _ hc))

/-- The schema has another structure for the name of the local type, and a node below it. -/
def strayEnvelope : Envelope where
  payload := [0x12, 1, 0, 0, 0, 1, 0, 0, 0, 0x07, 7, 0, 0, 0]
  schema := [⟨"Tagged", .composite, none, [], [.mandatory "id" (.primitive (.scalar .i32))]⟩,
    ⟨"Node", .composite, some "Tagged", [], []⟩]

/-- Not every root that passes for a local type is of that type: a supertype has its name, but not
its digest. -/
theorem not_forall_root_of_local :
    ¬ ∀ (S : Settings) (s t : Endpoint) (envelope : Envelope) (name : String)
        (held type : RuntimeType) (d : DecodedGraph), s.Served →
      s.locals.lookup? name = some held → decode S envelope (.reference name) s = .ok d t →
      d.graph.typeOf? d.root = some type →
      (∃ e ∈ type.descriptor.lineage, e.name = name ∧ e.digest = held.digest) ∨
        (∀ e ∈ type.descriptor.lineage, e.name ≠ name) ∧
          ∃ e ∈ type.descriptor.lineage, name ∈ e.interfaces := by
  intro hclaim
  let s : Endpoint := (register tagged).after (.empty 0)
  have hserved : s.Served := .call (.register tagged) (.empty 0)
  obtain ⟨held, hheld, hdigest⟩ : ∃ held, s.locals.lookup? "Tagged" = some held ∧
      held.digest = tagged.digest := ⟨_, rfl, rfl⟩
  obtain ⟨d, t, hdecode, hcheck⟩ := Step.exists_of_succeedsWith
    (show Step.succeedsWith (decode .standard strayEnvelope (.reference "Tagged")) s (fun d _ =>
      ((d.graph.typeOf? d.root).filter fun type =>
        (∃ e ∈ type.descriptor.lineage, e.name = "Tagged") ∧
        ∀ e ∈ type.descriptor.lineage, e.name = "Tagged" → e.digest ≠ tagged.digest).isSome) = true
      by decide +kernel)
  obtain ⟨type, hroot⟩ := Option.isSome_iff_exists.mp hcheck
  obtain ⟨htype, hroot⟩ := Option.filter_eq_some_iff.mp hroot
  obtain ⟨⟨c, hc, hcname⟩, hforeign⟩ := of_decide_eq_true hroot
  rcases hclaim .standard s t strayEnvelope "Tagged" held type d hserved hheld hdecode htype with
    ⟨e, he, hename, hedigest⟩ | ⟨hnone, -⟩
  · exact hforeign e he hename (hedigest.trans hdigest)
  · exact hnone c hc hcname

/-- The other structure by itself. -/
def foreignEnvelope : Envelope where
  payload := [0x12, 0, 0, 0, 0, 1, 0, 0, 0, 0x07, 7, 0, 0, 0]
  schema := [⟨"Tagged", .composite, none, [], [.mandatory "id" (.primitive (.scalar .i32))]⟩]

/-- Where the cache keeps descriptors under digests that are not theirs, the digest of the local
type may be one of these. -/
theorem exists_root_of_foreign_key :
    ∃ (s t : Endpoint) (held type : RuntimeType) (d : DecodedGraph), s.locals.Reached Set.univ ∧
      s.synthesis.Attained ∧ s.locals.lookup? "Tagged" = some held ∧
      decode .standard foreignEnvelope (.reference "Tagged") s = .ok d t ∧
      d.graph.typeOf? d.root = some type ∧ type.name = "Tagged" ∧
      type.digest = held.digest ∧ type.descriptor.digest ≠ held.digest := by
  let s : Endpoint := ⟨taggedLocals, ⟨1, fun _ => tagged.digest, []⟩, .empty⟩
  obtain ⟨held, hheld, hdigest⟩ : ∃ held, s.locals.lookup? "Tagged" = some held ∧
      held.digest = tagged.digest := ⟨_, rfl, rfl⟩
  obtain ⟨d, t, hdecode, hcheck⟩ := Step.exists_of_succeedsWith
    (show Step.succeedsWith (decode .standard foreignEnvelope (.reference "Tagged")) s (fun d _ =>
      ((d.graph.typeOf? d.root).filter fun type => type.name = "Tagged" ∧
        type.digest = tagged.digest ∧ type.descriptor.digest ≠ tagged.digest).isSome) = true
      by decide +kernel)
  obtain ⟨type, hroot⟩ := Option.isSome_iff_exists.mp hcheck
  obtain ⟨htype, hroot⟩ := Option.filter_eq_some_iff.mp hroot
  rw [← hdigest] at hroot
  exact ⟨s, t, held, type, d, reached_taggedLocals, .empty 1 _, hheld, hdecode, htype,
    of_decide_eq_true hroot⟩

end Endpoint

end ObjectEnvelope
