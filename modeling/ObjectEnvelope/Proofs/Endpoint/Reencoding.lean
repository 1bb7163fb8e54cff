import ObjectEnvelope.Proofs.Endpoint.DecodedGraphs
import ObjectEnvelope.Proofs.Endpoint.InlineCopies
import ObjectEnvelope.Proofs.Endpoint.OwnEnvelopes
import ObjectEnvelope.Proofs.Envelope.Verbatim
import ObjectEnvelope.Proofs.Payload.Rewriting

/-!
# Encoding again what was decoded

A decoded graph mirrors the one that was encoded, so encoding it again makes the same steps
(`Endpoint.exists_encode_of_mirrors`), and only the descriptors can differ. With the endpoint that
wrote the envelope they do not, as it decodes its own types; with an endpoint without types they do
not either, as its types were made of the entries, word for word (`encode_of_decode_encode`).
-/

namespace ObjectEnvelope

open ObjectGraph (Linked)

/-! ## Descriptors that are described again -/

/-- A type none of whose interfaces is a local type brings along its supertypes only. -/
theorem LocalTypes.closure_eq_lineage {locals : LocalTypes} {t : RuntimeType}
    (h : ∀ d ∈ t.descriptor.lineage, ∀ name ∈ d.interfaces, locals.lookup? name = none) :
    locals.closure t = t.descriptor.lineage := by
  have hself : ∀ d ∈ t.descriptor.lineage, d :: d.interfaces.flatMap locals.lineageOf = [d] := by
    intro d hd
    have hnone : d.interfaces.flatMap locals.lineageOf = [] := by
      rw [List.flatMap_eq_nil_iff]
      intro name hname
      unfold lineageOf
      rw [h d hd name hname]
    rw [hnone]
  rw [closure, List.flatMap_congr hself, List.flatMap_singleton']

/-- Matching tables have the same entries if what the second holds is found in the first. -/
theorem SchemaTable.Matches.entries_eq {table table' : SchemaTable}
    (h : table.Matches Descriptor.Alike table') (hnames : (table.descriptors.map (·.name)).Nodup)
    (hmem : ∀ d ∈ table'.descriptors, SchemaEntry.ofDescriptor d ∈ table.entries) :
    table'.entries = table.entries := by
  have hsame : List.Forall₂ (fun d d' => SchemaEntry.ofDescriptor d = SchemaEntry.ofDescriptor d')
      table.descriptors table'.descriptors := by
    refine List.forall₂_iff_get.mpr ⟨h.descriptors.length_eq, fun i hi hi' => ?_⟩
    have hname := (h.descriptors.get hi hi').name
    have hd := List.get_mem table.descriptors ⟨i, hi⟩
    obtain ⟨c, hc, hentry⟩ := List.mem_map.mp (hmem _ (List.get_mem table'.descriptors ⟨i, hi'⟩))
    obtain rfl : c = table.descriptors.get ⟨i, hi⟩ :=
      List.inj_on_of_nodup_map hnames hc hd
        ((congrArg SchemaEntry.name hentry).trans hname.symm)
    exact hentry
  rw [entries, entries, ← List.forall₂_eq_eq_eq, List.forall₂_map_left_iff,
    List.forall₂_map_right_iff]
  exact List.Forall₂.flip (hsame.imp fun _ _ => Eq.symm)

namespace Encoder

variable {e e' : Encoder} {root root' : Value} {codecs : CodecCache} {after : Encoding}
  {made : List Handle} {rel : Descriptor → Descriptor → Prop}

/-- A mirror of what was written can be written alike: each of its objects was made of one, and an
object that has a number was made once. -/
theorem Makes.rewrites (hmakes : e.Makes (Encoding.start codecs) [root] made after)
    (hnodup : after.numbered.toList.Nodup) (hmirrors : e.graph.Mirrors made e'.graph)
    (hinline : ∀ name, e'.settings.isInline name = e.settings.isInline name)
    (hdepth : e.settings.maxDepth ≤ e'.settings.maxDepth) (hkeeps : SchemaTable.Keeps rel)
    (hclosure : ∀ t t', e.graph.Uses root t → e'.graph.Uses root' t' → t.Twin t' →
      List.Forall₂ rel (e.locals.closure t) (e'.locals.closure t')) :
    e.Rewrites e' root root' (Linked made) rel where
  inline := hinline
  depth := hdepth
  origin _ _ _ hh hh' := Option.some_inj.mp (hh.symm.trans hh')
  shared h k k' hnumbered hk hk' := by
    have hindex := ObjectGraph.eq_of_getElem?_of_count_le
      (hmakes.count_le_one hnodup hnumbered) hk hk'
    cases k
    cases k'
    exact congrArg Handle.mk hindex
  object _ _ hlink _ hget := hmirrors.exists_object hlink hget
  keeps := hkeeps
  closure := hclosure

end Encoder

namespace Endpoint

variable {R : Settings} {receiver u v : Endpoint} {e : Encoder} {root : Value} {envelope : Envelope}
  {codecs : CodecCache} {after : Encoding} {types : List RuntimeType} {d : DecodedGraph}

/-- What was decoded with twins of the written types is encoded to the same payload, with a schema
that matches. -/
theorem exists_encode_of_mirrors (hgraph : e.graph.WellFormed)
    (hwrite : e.writeRoot root (Encoding.start codecs) = .ok envelope after)
    (hinline : ∀ name, R.isInline name = e.settings.isInline name)
    (hdepth : e.settings.maxDepth ≤ R.maxDepth)
    (hresolve : resolve R envelope.schema receiver = .ok types u)
    (hknows : Decoder.Knows ⟨R, types⟩ e root after.schema)
    (hdecode : decode R envelope .any receiver = .ok d v)
    {rel : Descriptor → Descriptor → Prop} (hkeeps : SchemaTable.Keeps rel)
    (hclosure : ∀ t, e.graph.Uses root t → ∀ t' ∈ types, t.Twin t' →
      List.Forall₂ rel (e.locals.closure t) (receiver.locals.closure t')) :
    ∃ table w, encode R d.graph d.root v = .ok ⟨envelope.payload, table.entries⟩ w ∧
      after.schema.Matches rel table ∧ table.Sound receiver.locals (d.graph.Uses d.root) := by
  obtain ⟨made, hmakes, -, hyields⟩ := yields_decode hgraph hdepth hwrite hresolve hknows
  obtain ⟨s, -, hsame, hmirrors, hcopies⟩ := hyields.of_ok hdecode
  obtain ⟨hlocals, hretraces⟩ := retraces_of_decode hresolve hdecode
  have hgraph' : d.graph.WellFormed := hretraces.made.built.wellFormed
  have hrewrites : e.Rewrites ⟨R, receiver.locals, d.graph⟩ root d.root (Linked made) rel :=
    hmakes.rewrites (Encoder.follows_of_writeRoot hgraph hwrite).nodup.2 (hsame ▸ hmirrors.graph)
      hinline hdepth hkeeps fun t t' ht ht' => hclosure t ht t'
        (hretraces.made.mem_of_uses (hretraces.parts _ (List.mem_singleton_self _)) ht')
  obtain ⟨after', hwrite', hmatches⟩ :=
    Encoder.writeRoot_rewrites hgraph hgraph' hrewrites hcopies hwrite v.codecs
  refine ⟨after'.schema, _, encode_eq_ok_iff.mpr ⟨after', hlocals ▸ hwrite', rfl⟩, hmatches, ?_⟩
  exact Encoder.sound_of_writeRoot hgraph' hwrite'

/-! ## With the types that were written -/

/-- Own types are registered under their names. -/
theorem lookup?_of_own {r : Resolver} {locals : LocalTypes} {table : SchemaTable}
    (hown : List.Forall₂ (Resolver.Own locals table) r.placed types) {t : RuntimeType}
    (ht : t ∈ types) : locals.lookup? t.name = some t := by
  obtain ⟨p, -, c, -, hfind⟩ := forall₂_exists_left hown ht
  have hlookup := (LocalTypes.find?_eq_some_iff.mp hfind).1
  rw [← (LocalTypes.mem_of_lookup? hlookup).2] at hlookup
  exact hlookup

/-- An endpoint with the types that were written resolves each entry to its own type. -/
theorem own_of_resolve {ds : Set Descriptor} (hgraph : e.graph.WellFormed)
    (hlocals : e.locals.Reached ds) (htypes : ∀ t, e.graph.Uses root t → t ∈ e.locals.types)
    (hwrite : e.writeRoot root (Encoding.start codecs) = .ok envelope after)
    (hsame : receiver.locals = e.locals)
    (hresolve : resolve R envelope.schema receiver = .ok types u) :
    List.Forall₂ (Resolver.Own e.locals after.schema)
      (Resolver.placed ⟨envelope.schema, e.locals, R.maxDepth⟩) types := by
  have hsound := Encoder.sound_of_writeRoot hgraph hwrite
  have hschema := Encoder.schema_of_writeRoot hwrite
  have hbinds := hlocals.consistent.binds_of_sound htypes hsound
  have hbuilds : Resolver.Builds ⟨envelope.schema, e.locals, R.maxDepth⟩
      (Resolver.Own e.locals after.schema) fun _ => True :=
    Resolver.builds_own hlocals.consistent hschema hsound.names hsound.parents hbinds
  rw [← hsame] at hbuilds ⊢
  exact (yields_resolve hbuilds trivial).of_ok hresolve

/-! ## Without local types -/

/-- An endpoint without types rebuilds the types that were written, word for word. -/
theorem quoted_of_resolve {ds : Set Descriptor} (hds : CollisionFree ds)
    {locals : LocalTypes} {used : RuntimeType → Prop} {table : SchemaTable}
    (htable : table.Sound locals used)
    (hknown : ∀ c ∈ table.descriptors, c.Known ds ∧ c.Admissible) {home home' : Nat}
    {cache : CodecCache}
    (hresolve : resolve R table.entries ⟨.empty home, .empty home', cache⟩ = .ok types u) :
    List.Forall₂ (Resolver.Rebuilt table)
        (Resolver.placed ⟨table.entries, .empty home, R.maxDepth⟩) types ∧
      ∀ t ∈ types, t.descriptor.Verbatim table.entries := by
  have hrebuilt : Resolver.Builds ⟨table.entries, .empty home, R.maxDepth⟩
      (Resolver.Rebuilt table) (·.Genuine ds) :=
    Resolver.builds_rebuilt hds (.empty home) rfl htable.names htable.parents hknown
  have hinterfaces : ∀ entry ∈ table.entries, entry.interfaces.Nodup := by
    intro entry hentry
    obtain ⟨c, -, rfl⟩ := List.mem_map.mp hentry
    exact c.isSealed.2.2.1
  have hbuilds := hrebuilt.and fun p hp s hs hneeds type t hrun =>
    Resolver.quoted_of_build (fun _ => rfl) htable.closed hinterfaces hp hs hneeds hrun
  have hkept : (SynthesisCache.empty home').Genuine ds ∧
      (SynthesisCache.empty home').Verbatim table.entries :=
    ⟨SynthesisCache.genuine_empty home', SynthesisCache.verbatim_empty home'⟩
  have hyields : Step.Yields (resolve R table.entries) ⟨.empty home, .empty home', cache⟩
      (fun types _ => List.Forall₂
        (fun p type => Resolver.Rebuilt table p type ∧
          Resolver.Quoted ⟨table.entries, .empty home, R.maxDepth⟩ p type)
        (Resolver.placed ⟨table.entries, .empty home, R.maxDepth⟩) types)
      (Resolver.Refusal ⟨table.entries, .empty home, R.maxDepth⟩) :=
    yields_resolve hbuilds hkept
  have htypes := hyields.of_ok hresolve
  refine ⟨htypes.imp fun _ _ h => h.1, fun t ht => ?_⟩
  obtain ⟨p, -, -, hquoted⟩ := forall₂_exists_left htypes ht
  exact hquoted.2

section

variable {S : Settings} {sender t : Endpoint} {g : ObjectGraph} {ds : Set Descriptor}

/-- An endpoint with the types that were written finds them in what it decodes, and encodes it to
the same envelope. -/
theorem reencodes_own (hsender : sender.locals.Reached ds) (hg : g.Built)
    (htypes : ∀ type, g.Uses root type → type ∈ sender.locals.types)
    (hrun : encode S g root sender = .ok envelope t) (hsame : receiver.locals = sender.locals)
    (hdecode : decode S envelope .any receiver = .ok d v) :
    (∀ h o, d.graph.get? h = some o → sender.locals.lookup? o.type.name = some o.type) ∧
    (∀ w, d.Stores w → ∀ c, w.Holds (.constant c) →
      sender.locals.lookup? c.type.name = some c.type) ∧
    ∃ v', encode S d.graph d.root v = .ok envelope v' := by
  obtain ⟨after, hwrite, -⟩ := encode_eq_ok_iff.mp hrun
  have hgraph := hg.wellFormed
  have hsound := Encoder.sound_of_writeRoot (e := ⟨S, sender.locals, g⟩) hgraph hwrite
  have hschema := Encoder.schema_of_writeRoot hwrite
  obtain ⟨types, u, -, hresolve, -⟩ := decode_eq_ok_iff.mp hdecode
  have hown := own_of_resolve (e := ⟨S, sender.locals, g⟩) hgraph hsender htypes hwrite hsame
    hresolve
  have hknows : Decoder.Knows ⟨S, types⟩ ⟨S, sender.locals, g⟩ root after.schema :=
    Encoder.knows_of_own (e := ⟨S, sender.locals, g⟩) hsender.consistent htypes
      hsound hschema hown
  obtain ⟨-, hretraces⟩ := retraces_of_decode hresolve hdecode
  refine ⟨fun h o hget => lookup?_of_own hown (hretraces.made.type h o hget),
    fun w hw c hc => lookup?_of_own hown ?_, ?_⟩
  · cases hw with
    | root => exact (hretraces.parts _ (List.mem_singleton_self _)).constant c hc
    | slot hget hw => exact (hretraces.made.field _ _ hget w hw).constant c hc
  · -- twins that are registered under one name are the same
    have hclosure : ∀ type, g.Uses root type → ∀ type' ∈ types, type.Twin type' →
        List.Forall₂ Eq (sender.locals.closure type) (receiver.locals.closure type') := by
      intro type htype type' htype' htwin
      have hlookup := lookup?_of_own hown htype'
      have hname : type.name = type'.name := htwin.alike.name
      rw [← hname, hsender.consistent.lookup?_eq (htypes type htype)] at hlookup
      rw [hsame, Option.some_inj.mp hlookup]
      exact List.forall₂_same.mpr fun _ _ => rfl
    obtain ⟨table, v', hencode, hmatches, -⟩ := exists_encode_of_mirrors hgraph hwrite
      (fun _ => rfl) (Nat.le_refl _) hresolve hknows hdecode SchemaTable.keeps_eq hclosure
    refine ⟨v', ?_⟩
    rw [hencode, ← hmatches.entries_of_eq, ← hschema]

/-- An endpoint without types encodes what it decodes to the same envelope, if no interface of the
written types was registered where they were written. -/
theorem reencodes_empty (hds : CollisionFree ds) (hsender : sender.locals.Reached ds)
    (hg : g.Built) (htypes : ∀ type, g.Uses root type → type ∈ sender.locals.types)
    (hinterfaces : ∀ type, g.Uses root type → ∀ c ∈ type.descriptor.lineage,
      ∀ name ∈ c.interfaces, sender.locals.lookup? name = none)
    (hrun : encode S g root sender = .ok envelope t)
    (hinline : ∀ name, R.isInline name = S.isInline name) (hdepth : R.maxDepth = S.maxDepth)
    {home home' : Nat} {cache : CodecCache}
    (hdecode : decode R envelope .any ⟨.empty home, .empty home', cache⟩ = .ok d v) :
    ∃ v', encode R d.graph d.root v = .ok envelope v' := by
  obtain ⟨after, hwrite, -⟩ := encode_eq_ok_iff.mp hrun
  have hgraph := hg.wellFormed
  have hfollows := Encoder.follows_of_writeRoot (e := ⟨S, sender.locals, g⟩) hgraph hwrite
  have hsound := hfollows.consistent.schema
  have hschema := Encoder.schema_of_writeRoot hwrite
  have hgenuine : ∀ type, g.Uses root type → type.Genuine ds :=
    fun type htype => hsender.consistent.genuine hds (htypes type htype)
  have hknown := Encoder.known_of_sound hds hsound hsender hgenuine
  obtain ⟨types, u, -, hresolve, -⟩ := decode_eq_ok_iff.mp hdecode
  obtain ⟨hrebuilt, hverbatim⟩ := quoted_of_resolve hds hsound hknown (hschema ▸ hresolve)
  have hknows : Decoder.Knows ⟨R, types⟩ ⟨S, sender.locals, g⟩ root after.schema :=
    Encoder.knows_of_rebuilt hds hfollows hgenuine hknown rfl hrebuilt
  have hnone : ∀ (type : RuntimeType) (c : Descriptor), c ∈ type.descriptor.lineage →
      ∀ name ∈ c.interfaces, (LocalTypes.empty home).lookup? name = none :=
    fun _ _ _ _ _ => rfl
  have hclosure : ∀ type, g.Uses root type → ∀ type' ∈ types, type.Twin type' →
      List.Forall₂ Descriptor.Alike (sender.locals.closure type)
        ((LocalTypes.empty home).closure type') := by
    intro type htype type' _ htwin
    rw [LocalTypes.closure_eq_lineage (hinterfaces type htype),
      LocalTypes.closure_eq_lineage (hnone type')]
    exact htwin.alike.lineage
  obtain ⟨table, v', hencode, hmatches, htable⟩ := exists_encode_of_mirrors hgraph hwrite hinline
    (Nat.le_of_eq hdepth.symm) hresolve hknows hdecode (fun _ _ h => ⟨h.name, h.digest⟩) hclosure
  obtain ⟨-, hretraces⟩ := retraces_of_decode hresolve hdecode
  -- what the second table holds are types that were made of the entries, and their supertypes
  have hmem : ∀ c ∈ table.descriptors, SchemaEntry.ofDescriptor c ∈ after.schema.entries := by
    intro c hc
    obtain ⟨type, htype, hdescribes⟩ := htable.needed c hc
    have hmade := hretraces.made.mem_of_uses (hretraces.parts _ (List.mem_singleton_self _)) htype
    cases hdescribes with
    | lineage hc => exact hverbatim type hmade c hc
    | interface _ _ hlookup => cases hlookup
  refine ⟨v', ?_⟩
  rw [hencode, hmatches.entries_eq hsound.names hmem, ← hschema]

/-- **Encoding again.** An endpoint that decodes what it wrote of registered types finds these very
types in the graph, and encodes the graph to the same envelope. When digests do not collide and no
interface of the types is itself registered, an endpoint without types that decodes the envelope
encodes the graph to the same envelope too. -/
theorem encode_of_decode_encode (hsender : sender.locals.Reached ds) (hg : g.Built)
    (htypes : ∀ type, g.Uses root type → type ∈ sender.locals.types)
    (hrun : encode S g root sender = .ok envelope t) :
    (∀ (r u : Endpoint) (d : DecodedGraph), r.locals = sender.locals →
      decode S envelope .any r = .ok d u →
        (∀ h o, d.graph.get? h = some o → sender.locals.lookup? o.type.name = some o.type) ∧
        (∀ v, d.Stores v → ∀ c, v.Holds (.constant c) →
          sender.locals.lookup? c.type.name = some c.type) ∧
        ∃ u', encode S d.graph d.root u = .ok envelope u') ∧
    (CollisionFree ds →
      (∀ type, g.Uses root type → ∀ c ∈ type.descriptor.lineage, ∀ name ∈ c.interfaces,
        sender.locals.lookup? name = none) →
      ∀ (R : Settings) (home home' : Nat) (cache : CodecCache) (d : DecodedGraph) (u : Endpoint),
        (∀ name, R.isInline name = S.isInline name) → R.maxDepth = S.maxDepth →
        decode R envelope .any ⟨.empty home, .empty home', cache⟩ = .ok d u →
        ∃ u', encode R d.graph d.root u = .ok envelope u') := by
  constructor
  · intro r u d hsame hdecode
    exact reencodes_own hsender hg htypes hrun hsame hdecode
  · intro hds hinterfaces R home home' cache d u hinline hdepth hdecode
    exact reencodes_empty hds hsender hg htypes hinterfaces hrun hinline hdepth hdecode

end

/-- The endpoint that wrote the two cells and an endpoint without types decode them and encode them
again. -/
theorem encode_of_decode_encode_cells :
    (∃ d u u', decode .standard cellsEnvelope .any ⟨cellLocals, .empty 0, .empty⟩ = .ok d u ∧
      encode .standard d.graph d.root u = .ok cellsEnvelope u') ∧
    ∃ d u u', decode .standard cellsEnvelope .any (.empty 0) = .ok d u ∧
      encode .standard d.graph d.root u = .ok cellsEnvelope u' := by
  obtain ⟨t, hrun⟩ := encode_cells
  have htypes : ∀ type, cells.Uses cellsRoot type → type ∈ cellLocals.types :=
    fun type htype => uses_cells htype ▸ List.mem_singleton_self _
  have hinterfaces : ∀ type, cells.Uses cellsRoot type → ∀ c ∈ type.descriptor.lineage,
      ∀ name ∈ c.interfaces, cellLocals.lookup? name = none := by
    intro type htype c hc name hname
    rw [uses_cells htype] at hc
    rw [List.mem_singleton.mp hc] at hname
    cases hname
  obtain ⟨hown, hempty⟩ := encode_of_decode_encode (reached_cellLocals (Set.mem_singleton cell))
    built_cells htypes hrun
  obtain ⟨d, u, hdecode⟩ := Step.exists_of_succeeds
    (show Step.succeeds (decode .standard cellsEnvelope .any) ⟨cellLocals, .empty 0, .empty⟩ = true
      by decide +kernel)
  obtain ⟨d', w, hdecode'⟩ := Step.exists_of_succeeds
    (show Step.succeeds (decode .standard cellsEnvelope .any) (.empty 0) = true by decide +kernel)
  obtain ⟨-, -, u', hencode⟩ := hown _ u d rfl hdecode
  obtain ⟨w', hencode'⟩ :=
    hempty (collisionFree_singleton cell) hinterfaces .standard 0 0 .empty d' w (fun _ => rfl) rfl hdecode'
  exact ⟨⟨d, u, u', hdecode, hencode⟩, d', w, w', hdecode', hencode'⟩

end Endpoint

end ObjectEnvelope
