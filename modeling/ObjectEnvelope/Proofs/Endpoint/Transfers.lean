import ObjectEnvelope.Proofs.Endpoint.Calls
import ObjectEnvelope.Proofs.Endpoint.EncodedGraphs
import ObjectEnvelope.Proofs.Envelope.Rebuilding
import ObjectEnvelope.Proofs.Payload.Copying

/-!
# From one endpoint to another

What a receiver makes of an envelope that was written elsewhere, in two halves: the schema is
resolved to twins of the types that were written (`exists_resolve`, `knows_of_rebuilt`), and with
twins at hand the payload is read into a mirror of the graph, or refused (`yields_readRoot`,
`yields_decode`).
-/

namespace ObjectEnvelope

open ObjectGraph (Linked)

/-- Lists that are not too long leave one way to be refused: there is no room for the objects. -/
theorem Decoder.Receives.not_refusal {d : Decoder} {e : Encoder} {root : Value}
    {table : SchemaTable} (h : d.Receives e root table) {count : Nat} {f : WireError}
    (hf : Decode.Refusal d.settings.maxListLength (e.graph.ListLength root) count f) :
    f = .notSerializable .graphFull ∧ ObjectGraph.capacity < count := by
  cases hf with
  | full hcount => exact ⟨rfl, hcount⟩
  | long hlong hlimit =>
    obtain ⟨items, hitems, rfl⟩ := hlong
    exact absurd (h.short items hitems) (Nat.not_le.mpr hlimit)

namespace Encoder

variable {e : Encoder} {root : Value} {envelope : Envelope} {codecs : CodecCache} {after : Encoding}
  {ds : Set Descriptor}

/-- What a written root was walked over, at the end of the encoding. -/
theorem follows_of_writeRoot (hgraph : e.graph.WellFormed)
    (h : e.writeRoot root (Encoding.start codecs) = .ok envelope after) :
    e.Follows root 0 (Encoding.start codecs) [root] after :=
  writeValue_follows hgraph (zero_add_roomAt e.settings) (.self root) (writeRoot_eq_ok_iff.mp h).2.1
    (consistent_start e root codecs)

/-- The schema of an envelope are the entries of the table. -/
theorem schema_of_writeRoot (h : e.writeRoot root (Encoding.start codecs) = .ok envelope after) :
    envelope.schema = after.schema.entries :=
  (writeRoot_eq_ok_iff.mp h).2.2

/-- The table holds what describes the types that the root uses, and nothing else. -/
theorem sound_of_writeRoot (hgraph : e.graph.WellFormed)
    (h : e.writeRoot root (Encoding.start codecs) = .ok envelope after) :
    after.schema.Sound e.locals (e.graph.Uses root) :=
  (follows_of_writeRoot hgraph h).consistent.schema

/-- No object was numbered twice, and none stands inside itself. -/
theorem Follows.nodup (h : e.Follows root 0 (Encoding.start codecs) [root] after) :
    e.graph.Grounded root ∧ after.numbered.toList.Nodup := by
  obtain ⟨ds, hwalk, -⟩ := h.walk
  have hroot := (hwalk.grounded (by simp [Encoding.start])).1
  exact ⟨hroot root (List.mem_singleton_self root), hwalk.nodup hroot .nil⟩

/-- The type of everything that the root leads to is described in the end. -/
theorem Follows.described {s t : Encoding} {depth : Nat} (h : e.Follows root depth s [root] t)
    {type : RuntimeType} (htype : e.graph.Uses root type) : type.digest ∈ t.schema.described := by
  have hadmits := h.admits root (List.mem_singleton_self root)
  cases htype with
  | object hreach hget => exact (hadmits _ hreach).object _ _ rfl hget
  | constant hreach => exact (hadmits _ hreach).constant _ rfl

/-- Descriptors in a schema are known and can be laid out, if the types that the root uses and the
local types are genuine. -/
theorem known_of_sound (hds : CollisionFree ds) {table : SchemaTable}
    (h : table.Sound e.locals (e.graph.Uses root)) (hlocals : e.locals.Reached ds)
    (htypes : ∀ t, e.graph.Uses root t → t.Genuine ds) :
    ∀ d ∈ table.descriptors, d.Known ds ∧ d.Admissible := by
  intro d hd
  obtain ⟨t, ht, hdescribes⟩ := h.needed d hd
  have hlineage : ∀ u : RuntimeType, u.Genuine ds → d ∈ u.descriptor.lineage →
      d.Known ds ∧ d.Admissible :=
    fun u hu hmem => ⟨hu.known.of_mem_lineage hmem, hu.admissible.of_mem_lineage hmem⟩
  cases hdescribes with
  | lineage hmem => exact hlineage t (htypes t ht) hmem
  | interface _ _ hlookup hmem =>
    have hlocal := (LocalTypes.mem_of_lookup? hlookup).1
    exact hlineage _ (hlocals.consistent.genuine hds hlocal) hmem

/-- Types that were rebuilt from the entries of a schema are twins of those that the root uses. -/
theorem knows_of_rebuilt (hds : CollisionFree ds)
    (hfollows : e.Follows root 0 (Encoding.start codecs) [root] after)
    (htypes : ∀ t, e.graph.Uses root t → t.Genuine ds)
    (hknown : ∀ d ∈ after.schema.descriptors, d.Known ds ∧ d.Admissible) {settings : Settings}
    {r : Resolver} (hschema : r.schema = after.schema.entries) {types : List RuntimeType}
    (hrebuilt : List.Forall₂ (Resolver.Rebuilt after.schema) r.placed types) :
    Decoder.Knows ⟨settings, types⟩ e root after.schema := by
  have hsound := hfollows.consistent.schema
  refine ⟨fun t ht index hindex => ?_, hsound.length_le⟩
  have hgenuine := htypes t ht
  have hused : ToldApart (e.graph.Uses root) :=
    fun a b ha hb hab => ((htypes a ha).twin hds (htypes b hb) hab).alike
  -- the descriptor at the place is that of the type
  obtain ⟨c, hc, hcname, hcdigest⟩ := hsound.held hused ht (hfollows.described ht)
    (.lineage t.descriptor.mem_lineage_self)
  obtain ⟨c', u, hc', hname, hu, d, hd, hdigest, halike⟩ :=
    Resolver.exists_of_index? hschema hrebuilt hindex
  have hmem := List.mem_of_getElem? hc'
  obtain rfl : c' = c := List.inj_on_of_nodup_map hsound.names hmem hc (hname.trans hcname.symm)
  obtain rfl : d = c' := Option.some_inj.mp (hd.symm.trans hc')
  have hlike : t.descriptor.Alike d := hgenuine.known.alike hds (hknown d hmem).1 hcdigest.symm
  refine ⟨u, hu, hlike.trans halike.symm, ?_⟩
  rw [hgenuine.digest, ← hcdigest]
  exact hdigest.symm

/-- With lists that are not too long, whatever was written is received. -/
theorem receives_of_rebuilt (hds : CollisionFree ds)
    (hfollows : e.Follows root 0 (Encoding.start codecs) [root] after)
    (htypes : ∀ t, e.graph.Uses root t → t.Genuine ds)
    (hknown : ∀ d ∈ after.schema.descriptors, d.Known ds ∧ d.Admissible) {settings : Settings}
    (hshort : ∀ items, e.graph.Reaches root (.list items) → items.length ≤ settings.maxListLength)
    {r : Resolver} (hschema : r.schema = after.schema.entries) {types : List RuntimeType}
    (hrebuilt : List.Forall₂ (Resolver.Rebuilt after.schema) r.placed types) :
    Decoder.Receives ⟨settings, types⟩ e root after.schema :=
  ⟨knows_of_rebuilt hds hfollows htypes hknown hschema hrebuilt, hshort⟩

/-! ## Reading what was written -/

variable {R : Settings} {types : List RuntimeType} {made : List Handle}

/-- A decoding that has a twin of every type reads the root into a mirror of the graph, in which
the same objects have numbers, or refuses it: for a list that is too long, or since there is no room
for the objects that were made. -/
theorem yields_readRoot (hgraph : e.graph.WellFormed) (hdepth : e.settings.maxDepth ≤ R.maxDepth)
    (h : e.writeRoot root (Encoding.start codecs) = .ok envelope after)
    (hknows : Decoder.Knows ⟨R, types⟩ e root after.schema) (codecs' : CodecCache) :
    ∃ made, e.Makes (Encoding.start codecs) [root] made after ∧
      9 * made.length ≤ envelope.payload.length ∧
      Step.Yields (Decoder.readRoot ⟨R, types⟩) ⟨Progress.start envelope.payload, codecs'⟩
        (fun w s => s.Mirrors e.graph after.numbered.toList made ∧ root.Copies (Linked made) w)
        (Decode.Refusal R.maxListLength (e.graph.ListLength root) made.length) := by
  have hroom : e.settings.roomAt 0 ≤ R.roomAt 0 := by
    unfold Settings.roomAt
    omega
  have hsize : (Encoding.start codecs).numbered.size ≤ Encoding.capacity := Nat.zero_le _
  obtain ⟨made, hmakes, hlength, hrestores⟩ := writeValue_restores hgraph hknows hroom
    (zero_add_roomAt e.settings) (.self root) (writeRoot_eq_ok_iff.mp h).2.1
    (consistent_start e root codecs) hsize List.prefix_rfl
  refine ⟨made, hmakes, hlength, ?_⟩
  have hread := hrestores 0 [] []
    ⟨Progress.start envelope.payload, codecs'⟩ (by rw [List.append_nil]; rfl)
    ⟨ObjectGraph.mirrors_empty _, .nil⟩
  simp only [List.nil_append, List.length_nil, Nat.zero_add] at hread
  rcases hread with ⟨w, s, hrun, hreader, hmirrors, hcopies⟩ | ⟨f, s, hrun, hf⟩
  · have hroot := Decoder.readRoot_eq_ok_iff.mpr ⟨hrun, congrArg Reader.rest hreader⟩
    exact .inl ⟨w, s, hroot, hmirrors, hcopies⟩
  · exact .inr ⟨f, s, Step.bind_eq_error_iff.mpr (.inl hrun), hf⟩

/-- Without inline types every object that was made has its number. -/
theorem Makes.eq_numbered (hinline : e.settings.inlineTypes = [])
    (h : e.Makes (Encoding.start codecs) [root] made after) : after.numbered.toList = made := by
  rw [h.numbered, List.filter_eq_self.mpr fun k _ => isNumbered_of_inlineTypes hinline k]
  rfl

/-- Without inline types there is room for every object that was made. -/
theorem Makes.length_le (hinline : e.settings.inlineTypes = [])
    (h : e.Makes (Encoding.start codecs) [root] made after) :
    made.length ≤ ObjectGraph.capacity := by
  rw [← h.eq_numbered hinline, Array.length_toList]
  exact h.size_le

/-- Without inline types a mirror of what was made is a copy. -/
theorem Makes.isCopy (hinline : e.settings.inlineTypes = [])
    (h : e.Makes (Encoding.start codecs) [root] made after)
    (hfollows : e.Follows root 0 (Encoding.start codecs) [root] after) {copy : ObjectGraph}
    {w : Value} (hmirrors : e.graph.Mirrors made copy) (hcopies : root.Copies (Linked made) w) :
    e.graph.IsCopy root copy w fun k => ⟨made.idxOf k⟩ :=
  hmirrors.isCopy (h.eq_numbered hinline ▸ hfollows.nodup.2) h.reaches_root hcopies

/-- Without inline types a copy is read. -/
theorem exists_copy_of_readRoot (hgraph : e.graph.WellFormed)
    (hinline : e.settings.inlineTypes = []) (hdepth : e.settings.maxDepth ≤ R.maxDepth)
    (h : e.writeRoot root (Encoding.start codecs) = .ok envelope after)
    (hreceives : Decoder.Receives ⟨R, types⟩ e root after.schema) (codecs' : CodecCache) :
    ∃ w s image, Decoder.readRoot ⟨R, types⟩ ⟨Progress.start envelope.payload, codecs'⟩ = .ok w s ∧
      e.graph.IsCopy root s.graph w image := by
  obtain ⟨made, hmakes, -, hyields⟩ := yields_readRoot hgraph hdepth h hreceives.toKnows codecs'
  rcases hyields with ⟨w, s, hrun, hmirrors, hcopies⟩ | ⟨f, s, -, hf⟩
  · exact ⟨w, s, _, hrun,
      hmakes.isCopy hinline (follows_of_writeRoot hgraph h) hmirrors.graph hcopies⟩
  · exact absurd (hreceives.not_refusal hf).2 (Nat.not_lt.mpr (hmakes.length_le hinline))

end Encoder

namespace Endpoint

variable {R : Settings} {receiver u : Endpoint} {e : Encoder} {root : Value} {envelope : Envelope}
  {codecs : CodecCache} {after : Encoding}

/-- A schema whose entries can be built is resolved to wanted types, or refused for what its entries
depend on. -/
theorem yields_resolve {schema : List SchemaEntry} {wanted : PlacedEntry → RuntimeType → Prop}
    {kept : SynthesisCache → Prop}
    (hbuilds : Resolver.Builds ⟨schema, receiver.locals, R.maxDepth⟩ wanted kept)
    (hkept : kept receiver.synthesis) :
    Step.Yields (resolve R schema) receiver
      (fun types _ =>
        List.Forall₂ wanted (Resolver.placed ⟨schema, receiver.locals, R.maxDepth⟩) types)
      (Resolver.Refusal ⟨schema, receiver.locals, R.maxDepth⟩) := by
  have hstart : Resolver.Sound ⟨schema, receiver.locals, R.maxDepth⟩ wanted kept
      ⟨receiver.synthesis, []⟩ :=
    ⟨hkept, fun p _ type htype => by cases htype⟩
  rcases hbuilds.yields_resolveAll hstart with ⟨types, t, hrun, -, htypes⟩ | ⟨f, t, hrun, hf⟩
  · exact .inl ⟨types, _, resolve_eq_ok_iff.mpr ⟨t, hrun, rfl⟩, htypes⟩
  · exact .inr ⟨f, _, resolve_eq_error_iff.mpr ⟨t, hrun, rfl⟩, hf⟩

/-- The entries of a table of known descriptors, which depend on each other within the chain limit,
are resolved to types that are rebuilt from them. -/
theorem exists_resolve {ds : Set Descriptor} (hds : CollisionFree ds)
    (hlocals : receiver.locals.Reached ds) (hsynthesis : receiver.synthesis.Reached ds)
    {locals : LocalTypes} {used : RuntimeType → Prop} {table : SchemaTable}
    (htable : table.Sound locals used)
    (hknown : ∀ d ∈ table.descriptors, d.Known ds ∧ d.Admissible)
    (hchains : SchemaEntry.WithinChains table.entries R.maxDepth) :
    ∃ types u, resolve R table.entries receiver = .ok types u ∧
      List.Forall₂ (Resolver.Rebuilt table)
        (Resolver.placed ⟨table.entries, receiver.locals, R.maxDepth⟩) types := by
  have hbuilds : Resolver.Builds ⟨table.entries, receiver.locals, R.maxDepth⟩
      (Resolver.Rebuilt table) (·.Genuine ds) :=
    Resolver.builds_rebuilt hds hlocals rfl htable.names htable.parents hknown
  rcases yields_resolve hbuilds (hsynthesis.genuine hds) with
    ⟨types, u, hrun, htypes⟩ | ⟨f, u, -, hf⟩
  · exact ⟨types, u, hrun, htypes⟩
  · exact absurd hf (Resolver.not_refusal hchains f)

/-- A receiver that has a twin of every type reads the payload into a mirror of the graph, in which
the same objects have numbers, or refuses it: for a list that is too long, or since there is no room
for the objects that were made. -/
theorem yields_decode (hgraph : e.graph.WellFormed) (hdepth : e.settings.maxDepth ≤ R.maxDepth)
    (hwrite : e.writeRoot root (Encoding.start codecs) = .ok envelope after)
    {types : List RuntimeType} (hresolve : resolve R envelope.schema receiver = .ok types u)
    (hknows : Decoder.Knows ⟨R, types⟩ e root after.schema) :
    ∃ made, e.Makes (Encoding.start codecs) [root] made after ∧
      9 * made.length ≤ envelope.payload.length ∧
      Step.Yields (decode R envelope .any) receiver
        (fun d _ => ∃ s, Decoder.readRoot ⟨R, types⟩
            ⟨Progress.start envelope.payload, u.codecs⟩ = .ok d.root s ∧ d.graph = s.graph ∧
          s.Mirrors e.graph after.numbered.toList made ∧ root.Copies (Linked made) d.root)
        (Decode.Refusal R.maxListLength (e.graph.ListLength root) made.length) := by
  obtain ⟨made, hmakes, hlength, hread⟩ :=
    Encoder.yields_readRoot hgraph hdepth hwrite hknows u.codecs
  refine ⟨made, hmakes, hlength, ?_⟩
  rcases hread with ⟨w, s, hrun, hmirrors, hcopies⟩ | ⟨f, s, hrun, hf⟩
  · have hnull := (Encoder.writeRoot_eq_ok_iff.mp hwrite).1
    have hgrounded := (Encoder.follows_of_writeRoot hgraph hwrite).nodup.1
    have hcheck : u.locals.checkRoot s.graph .any w = .ok () := by
      refine LocalTypes.checkRoot_eq_ok_iff.mpr ⟨rfl, mt hcopies.eq_null_iff.mpr hnull, ?_⟩
      exact hgrounded.fits_any.copies hcopies hmirrors.graph.exists_twin
    refine .inl ⟨⟨s.graph, w⟩, { u with codecs := s.codecs }, ?_, s, hrun, rfl, hmirrors, hcopies⟩
    exact decode_eq_ok_iff.mpr ⟨types, u, s, hresolve, hrun, rfl, hcheck, rfl⟩
  · exact .inr ⟨f, { u with codecs := s.codecs }, decode_eq_error_of_readRoot hresolve hrun, hf⟩

/-- Without inline types the receiver decodes a copy. -/
theorem exists_copy_of_receives (hgraph : e.graph.WellFormed)
    (hinline : e.settings.inlineTypes = []) (hdepth : e.settings.maxDepth ≤ R.maxDepth)
    (hwrite : e.writeRoot root (Encoding.start codecs) = .ok envelope after)
    {types : List RuntimeType} (hresolve : resolve R envelope.schema receiver = .ok types u)
    (hreceives : Decoder.Receives ⟨R, types⟩ e root after.schema) :
    ∃ d t image, decode R envelope .any receiver = .ok d t ∧
      e.graph.IsCopy root d.graph d.root image := by
  obtain ⟨made, hmakes, -, hyields⟩ :=
    yields_decode hgraph hdepth hwrite hresolve hreceives.toKnows
  rcases hyields with ⟨d, t, hok, s, -, hsame, hmirrors, hcopies⟩ | ⟨f, t, -, hf⟩
  · exact ⟨d, t, _, hok, hmakes.isCopy hinline (Encoder.follows_of_writeRoot hgraph hwrite)
      (hsame ▸ hmirrors.graph) hcopies⟩
  · exact absurd (hreceives.not_refusal hf).2 (Nat.not_lt.mpr (hmakes.length_le hinline))

end Endpoint

end ObjectEnvelope
