import ObjectEnvelope.Proofs.Endpoint.RoundTrips
import ObjectEnvelope.Proofs.Envelope.Frames

/-!
# Own envelopes

An endpoint reads back the frames that it wrote of registered types. Every descriptor in their
schema is bound to a registered type (`LocalTypes.Consistent.binds_of_describes`), so each entry is
resolved to the very type that was written (`Resolver.builds_own`), whatever the digests. What may
stand in the way are three guards of the decoder that registration does not know.
-/

namespace ObjectEnvelope

/-- What describes a registered type is bound. -/
theorem LocalTypes.Consistent.binds_of_describes {ds : Set Descriptor} {locals : LocalTypes}
    (h : locals.Consistent ds) {t : RuntimeType} (ht : t ∈ locals.types) {d : Descriptor}
    (hd : locals.Describes t d) : locals.Binds d := by
  cases hd with
  | lineage hd => exact h.binds t ht d hd
  | interface _ _ hlookup hd => exact h.binds _ (mem_of_lookup? hlookup).1 d hd

/-- What a table of registered types holds is bound. -/
theorem LocalTypes.Consistent.binds_of_sound {ds : Set Descriptor} {locals : LocalTypes}
    (h : locals.Consistent ds) {used : RuntimeType → Prop}
    (hused : ∀ t, used t → t ∈ locals.types) {table : SchemaTable}
    (htable : table.Sound locals used) : ∀ d ∈ table.descriptors, locals.Binds d := by
  intro d hd
  obtain ⟨t, ht, hdescribes⟩ := htable.needed d hd
  exact h.binds_of_describes (hused t ht) hdescribes

namespace Resolver

variable {r : Resolver} {table : SchemaTable} {ds : Set Descriptor}

/-- The type is the registered one of the name and the digest at its place. -/
def Own (locals : LocalTypes) (table : SchemaTable) (p : PlacedEntry) (type : RuntimeType) : Prop :=
  ∃ d, table.descriptors[p.place]? = some d ∧ locals.find? d = some type

/-- The entries of a table of bound descriptors can be built. -/
theorem builds_own (hlocals : r.locals.Consistent ds) (hschema : r.schema = table.entries)
    (hnames : (table.descriptors.map (·.name)).Nodup)
    (hparents : ∀ d ∈ table.descriptors, ∀ p, d.parent? = some p → table.Held p)
    (hbinds : ∀ d ∈ table.descriptors, r.locals.Binds d) :
    r.Builds (Own r.locals table) fun _ => True := by
  intro p hp s hs hneeds
  obtain ⟨d, hplace, hentry⟩ := (mem_placed_entries_iff hschema).mp hp
  have hd := List.mem_of_getElem? hplace
  obtain ⟨type, hlookup, htype⟩ := (hbinds d hd).exists_lookup? hlocals
  rw [hentry] at hneeds
  obtain ⟨parent, hdescribe, hrel⟩ := exists_describe hschema hnames hparents hd hneeds
  -- the supertype was resolved to the registered one, which is found by its own digest
  have hdigests : Option.Rel (fun a p => a.digest = p.digest) parent d.parent? := by
    generalize d.parent? = above at hrel
    cases hrel with
    | none => exact .none
    | some h =>
      obtain ⟨q, hq, found, e, hfound, rfl, he, hdigest⟩ := h
      obtain ⟨e', he', hfind⟩ := hs.2 q hq found hfound
      obtain rfl : e' = e := Option.some_inj.mp (he'.symm.trans he)
      obtain ⟨hheld, hfounddigest⟩ := LocalTypes.find?_eq_some_iff.mp hfind
      have hself := hlocals.digest found (LocalTypes.mem_of_lookup? hheld).1
      exact .some (hself.symm.trans (hfounddigest.trans hdigest))
  obtain ⟨d', hdeclare, hname, hdigest, -⟩ := d.exists_redeclare hdigests
  have hfind : r.locals.find? d' = some type :=
    LocalTypes.find?_eq_some_iff.mpr ⟨hname ▸ hlookup, htype.trans hdigest.symm⟩
  have htypeOf : r.typeOf d' s = .ok type s := by
    unfold typeOf
    rw [hfind]
    rfl
  refine ⟨type, s.synthesis, ?_, trivial, d, hplace, ?_⟩
  · exact build_eq_ok (hentry ▸ hdescribe.trans hdeclare) htypeOf
  · exact LocalTypes.find?_eq_some_iff.mpr ⟨hlookup, htype⟩

end Resolver

namespace Encoder

variable {e : Encoder} {root : Value} {table : SchemaTable} {ds : Set Descriptor}
  {settings : Settings} {r : Resolver} {types : List RuntimeType}

/-- Types that were resolved to the registered ones are those that the root uses. -/
theorem knows_of_own (hlocals : e.locals.Consistent ds)
    (htypes : ∀ t, e.graph.Uses root t → t ∈ e.locals.types)
    (htable : table.Sound e.locals (e.graph.Uses root)) (hschema : r.schema = table.entries)
    (hown : List.Forall₂ (Resolver.Own e.locals table) r.placed types) :
    Decoder.Knows ⟨settings, types⟩ e root table := by
  refine ⟨fun t ht index hindex => ?_, htable.length_le⟩
  obtain ⟨d, u, hd, hname, hu, d', hd', hfind⟩ := Resolver.exists_of_index? hschema hown hindex
  obtain rfl : d' = d := Option.some_inj.mp (hd'.symm.trans hd)
  have hlookup := (LocalTypes.find?_eq_some_iff.mp hfind).1
  rw [hname, hlocals.lookup?_eq (htypes t ht), Option.some_inj] at hlookup
  exact ⟨u, hu, hlookup ▸ ⟨.refl _, rfl⟩⟩

theorem receives_of_own (hlocals : e.locals.Consistent ds)
    (htypes : ∀ t, e.graph.Uses root t → t ∈ e.locals.types)
    (htable : table.Sound e.locals (e.graph.Uses root))
    (hshort : ∀ items, e.graph.Reaches root (.list items) → items.length ≤ settings.maxListLength)
    (hschema : r.schema = table.entries)
    (hown : List.Forall₂ (Resolver.Own e.locals table) r.placed types) :
    Decoder.Receives ⟨settings, types⟩ e root table :=
  ⟨knows_of_own hlocals htypes htable hschema hown, hshort⟩

end Encoder

namespace Endpoint

/-- **Own envelopes are read back.** What an endpoint with the default settings writes of registered
types, with lists that are not too long, it decodes to a copy of what the root leads to, unless one
of three guards refuses the schema: a value type nests too deep, an entry depends on itself, or a
chain of entries of which each depends on the next is too long. -/
theorem decodeBytes_of_encode {sender t : Endpoint} {g : ObjectGraph} {root : Value}
    {envelope : Envelope} {bytes : List UInt8} (hsender : sender.locals.Reached Set.univ)
    (hg : g.Built) (htypes : ∀ type, g.Uses root type → type ∈ sender.locals.types)
    (hshort : ∀ items, g.Reaches root (.list items) →
      items.length ≤ Settings.standard.maxListLength)
    (hrun : encode .standard g root sender = .ok envelope t)
    (hbytes : envelope.toBytes = .ok bytes) :
    (∃ d u image, decodeBytes .standard bytes .any t = .ok d u ∧
      g.IsCopy root d.graph d.root image) ∨
    ∃ f u, decodeBytes .standard bytes .any t = .error f u ∧
      (TooDeep (Envelope.NestsTooDeep envelope.schema) f ∨
        Resolver.Refusal ⟨envelope.schema, t.locals, Settings.standard.maxDepth⟩ f) := by
  obtain ⟨after, hwrite, ht⟩ := encode_eq_ok_iff.mp hrun
  have hkept : t.locals = sender.locals := by rw [ht]
  rw [← hkept] at hsender htypes hwrite
  have hgraph := hg.wellFormed
  have hlocals := hsender.consistent
  have hfollows := Encoder.follows_of_writeRoot (e := ⟨.standard, t.locals, g⟩) hgraph hwrite
  have hsound := hfollows.consistent.schema
  have hschema : envelope.schema = after.schema.entries :=
    (Encoder.writeRoot_eq_ok_iff.mp hwrite).2.2
  have hnames : (envelope.schema.map (·.name)).Nodup := by
    rw [hschema, SchemaTable.entries, List.map_map]
    exact hsound.names
  rcases Envelope.ofBytes_of_toBytes hnames hbytes with hread | ⟨f, hread, hf⟩
  · rw [decodeBytes_eq_decode hread]
    have hbinds : ∀ d ∈ after.schema.descriptors, t.locals.Binds d := by
      intro d hd
      obtain ⟨type, htype, hdescribes⟩ := hsound.needed d hd
      exact hlocals.binds_of_describes (htypes type htype) hdescribes
    have hbuilds : Resolver.Builds ⟨envelope.schema, t.locals, Settings.standard.maxDepth⟩
        (Resolver.Own t.locals after.schema) fun _ => True :=
      Resolver.builds_own hlocals hschema hsound.names hsound.parents hbinds
    rcases yields_resolve hbuilds trivial with ⟨types, u, hresolve, hown⟩ | ⟨f, u, hresolve, hf⟩
    · have hreceives : Decoder.Receives ⟨.standard, types⟩ ⟨.standard, t.locals, g⟩ root
          after.schema := Encoder.receives_of_own hlocals htypes hsound hshort hschema hown
      exact .inl (exists_copy_of_receives hgraph rfl (Nat.le_refl _) hwrite hresolve hreceives)
    · exact .inr ⟨f, u, decode_eq_error hresolve, .inr hf⟩
  · exact .inr ⟨f, _, decodeBytes_eq_error hread, .inl hf⟩

/-- Two cells that share one of them are read back where they were written. -/
theorem decodeBytes_of_encode_cells :
    ∃ t bytes, encode .standard cells cellsRoot ⟨cellLocals, .empty 0, .empty⟩ =
        .ok cellsEnvelope t ∧ cellsEnvelope.toBytes = .ok bytes ∧
      ∃ d u image, decodeBytes .standard bytes .any t = .ok d u ∧
        cells.IsCopy cellsRoot d.graph d.root image := by
  obtain ⟨t, hrun⟩ := encode_cells
  obtain ⟨bytes, hbytes⟩ : ∃ bytes, cellsEnvelope.toBytes = .ok bytes := ⟨_, rfl⟩
  refine ⟨t, bytes, hrun, hbytes, ?_⟩
  rcases decodeBytes_of_encode (reached_cellLocals (Set.mem_univ cell)) built_cells
    (fun type htype => uses_cells htype ▸ List.mem_singleton_self _)
    (fun items hitems => (short_cells hitems).trans (by decide)) hrun hbytes with
    hok | ⟨f, u, -, ⟨-, entry, hentry, hdeep⟩ | hrefused⟩
  · exact hok
  · rw [List.mem_singleton.mp hentry] at hdeep
    exact absurd hdeep (by decide)
  · exact absurd hrefused (Resolver.not_refusal (withinChains_cells _) f)

/-! ## A type that its own endpoint refuses -/

/-- The type without fields that names itself as an interface. -/
def loop : Descriptor :=
  ⟨Declaration.toLevel ⟨"Loop", .composite, [], ["Loop"]⟩ [], [],
    Declaration.sealed_toLevel (by decide) (by decide) trivial⟩

/-- The loop as a runtime type. -/
def loopType : RuntimeType :=
  ⟨⟨.known, 0, 0⟩, loop.digest, loop, loop.layout, rfl, by decide⟩

/-- What is registered where loops are known. -/
def loopLocals : LocalTypes := ⟨0, [loopType]⟩

theorem reached_loopLocals : loopLocals.Reached Set.univ := by
  have hregister : LocalTypes.register loop (.empty 0) = .ok loopType loopLocals := rfl
  rw [← Step.after_of_ok hregister]
  exact .register (.empty 0) fun d _ => Set.mem_univ d

/-- A single loop. -/
def loops : ObjectGraph := ⟨#[⟨loopType, []⟩]⟩

theorem built_loops : loops.Built := by
  have hnew : ObjectGraph.empty.instantiate loopType [] = .ok (⟨0⟩, loops) := rfl
  exact .instantiate .empty hnew

theorem reaches_loops {v : Value} (h : loops.Reaches (.object ⟨0⟩) v) : v = .object ⟨0⟩ := by
  cases h with
  | self => rfl
  | field hget hv _ =>
    cases hget
    cases hv

theorem uses_loops {t : RuntimeType} (h : loops.Uses (.object ⟨0⟩) t) : t = loopType := by
  cases h with
  | object hreach hget =>
    cases reaches_loops hreach
    cases hget
    rfl
  | constant hreach => cases reaches_loops hreach

/-- The loop on the wire. -/
def loopsEnvelope : Envelope :=
  ⟨[0x12, 0, 0, 0, 0, 0, 0, 0, 0], [.ofDescriptor loop]⟩

theorem encode_loops : ∃ t, encode .standard loops (.object ⟨0⟩) ⟨loopLocals, .empty 0, .empty⟩ =
    .ok loopsEnvelope t :=
  Step.exists_of_outcome (by decide +kernel)

/-- Not all is read back that is written: the endpoint that registered the loop refuses its own
envelope, since the entry of the loop depends on itself. -/
theorem not_forall_decodeBytes_of_encode :
    ¬ ∀ (sender t : Endpoint) (g : ObjectGraph) (root : Value) (envelope : Envelope)
        (bytes : List UInt8), sender.locals.Reached Set.univ → g.Built →
      (∀ type, g.Uses root type → type ∈ sender.locals.types) →
      (∀ items, g.Reaches root (.list items) →
        items.length ≤ Settings.standard.maxListLength) →
      encode .standard g root sender = .ok envelope t → envelope.toBytes = .ok bytes →
      ∃ d u, decodeBytes .standard bytes .any t = .ok d u := by
  intro hclaim
  obtain ⟨t, hrun⟩ := encode_loops
  obtain ⟨bytes, hbytes, hrefused⟩ : ∃ bytes, loopsEnvelope.toBytes = .ok bytes ∧
      ∀ synthesis codecs, decodeBytes .standard bytes .any ⟨loopLocals, synthesis, codecs⟩ =
        .error (.synthesisFailure (.cyclicDependency "Loop")) ⟨loopLocals, synthesis, codecs⟩ :=
    ⟨_, rfl, fun _ _ => rfl⟩
  obtain ⟨d, u, hok⟩ := hclaim _ t loops _ loopsEnvelope bytes reached_loopLocals built_loops
    (fun type htype => uses_loops htype ▸ List.mem_singleton_self _)
    (fun items hitems => by cases reaches_loops hitems) hrun hbytes
  obtain ⟨after, -, rfl⟩ := encode_eq_ok_iff.mp hrun
  rw [hrefused] at hok
  cases hok

end Endpoint

end ObjectEnvelope
