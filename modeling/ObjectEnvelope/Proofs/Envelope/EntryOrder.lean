import ObjectEnvelope.Proofs.Envelope.Resolutions

/-!
# The order of entries

The chain limit is compared with the number of entries that wait for each other, which hangs on what
was resolved before. Whether a schema is resolved does not hang on the order of its entries as long
as no chain is longer than allowed (`Resolver.accepts_of_perm`). Where a chain is longer, the schema
is refused if the entry at its start comes first, while an order in which every entry comes after
those that it depends on never meets the limit.
-/

namespace ObjectEnvelope

namespace Resolver

open SchemaEntry

variable {r : Resolver} {cache : SynthesisCache} {p q : PlacedEntry} {s : Resolution}
  {schema : List SchemaEntry}

/-- The resolver of another schema for the same receiver. -/
def withSchema (r : Resolver) (schema : List SchemaEntry) : Resolver :=
  { r with schema }

/-- Types are found for all entries. -/
def Accepts (r : Resolver) (cache : SynthesisCache) : Prop :=
  ∃ types t, r.resolveAll ⟨cache, []⟩ = .ok types t

/-- Whatever is accepted in some order is resolvable in every order, and no entry depends on
itself. -/
theorem Accepts.resolvable {ds : Set Descriptor} (hnames : (r.schema.map (·.name)).Nodup)
    (hlocals : r.locals.Consistent ds) (hcache : cache.Indexed) (h : r.Accepts cache) :
    Resolvable r.schema r.locals cache ∧ ∀ a, ¬ Relation.TransGen (Depends r.schema) a a := by
  obtain ⟨types, t, hrun⟩ := h
  exact ((yields_standing hnames hlocals hcache).of_ok hrun).1

theorem depends_of_mem_iff {schema' : List SchemaEntry}
    (hmem : ∀ entry, entry ∈ schema ↔ entry ∈ schema') :
    Depends schema = Depends schema' := by
  funext a b
  simp only [Depends, hmem]

/-! ## Dependent entries first -/

/-- An entry fails with what it needs first, if that is not resolved yet. -/
theorem settle_eq_error {deeper : PlacedEntry → Resolve RuntimeType} {path : List Nat}
    {others : List PlacedEntry} (hneeds : r.needs p.entry = q :: others)
    (hnone : s.typeAt? q.place = none) (hdeeper : ∃ e t, deeper q s = .error e t) :
    ∃ e t, r.settle deeper path p s = .error e t := by
  obtain ⟨e, t, hawait⟩ : ∃ e t, await deeper (p.place :: path) q s = .error e t := by
    simp only [await, Step.bind_eq_error_iff, Step.get_eq_ok_iff, Step.get_ne_error, false_or]
    by_cases hwaiting : q.place ∈ p.place :: path
    · refine ⟨.synthesisFailure (.cyclicDependency q.entry.name), s, s, s, ⟨rfl, rfl⟩, ?_⟩
      rw [if_pos (by rw [hnone]; rfl), if_pos hwaiting]
      exact Step.bind_eq_error_iff.mpr (.inl rfl)
    · obtain ⟨e, t, hrun⟩ := hdeeper
      refine ⟨e, t, s, s, ⟨rfl, rfl⟩, ?_⟩
      rw [if_pos (by rw [hnone]; rfl), if_neg hwaiting]
      exact Step.discard_eq_error_iff.mpr hrun
  refine ⟨e, t, ?_⟩
  rw [settle_eq, hneeds]
  exact Step.bind_eq_error_iff.mpr (.inl (Step.bind_eq_error_iff.mpr (.inl hawait)))

/-- The supertype of an entry is what it needs first. -/
theorem exists_needs_of_parent? (hnames : (r.schema.map (·.name)).Nodup) {entry above : SchemaEntry}
    (hparent : entry.parent? = some above.name) (hmem : above ∈ r.schema) :
    ∃ q others, r.needs entry = q :: others ∧ q.entry = above := by
  obtain ⟨q, hq, rfl⟩ := exists_entry?_eq hnames hmem
  refine ⟨q, entry.interfaces.filterMap r.entry?, ?_, rfl⟩
  rw [needs, hparent, Option.toList_some, List.singleton_append]
  exact List.filterMap_cons_some hq

/-- Before anything is resolved, a visit follows the supertypes of an entry and meets the limit. The
induction is on the number of entries that the chain may still grow by. -/
theorem visit_eq_error (hnames : (r.schema.map (·.name)).Nodup) (root : String) {room : Nat}
    {path : List Nat} {chain : List SchemaEntry}
    (hchain : List.IsChain (fun a b => a.parent? = some b.name) (p.entry :: chain))
    (hmem : ∀ above ∈ chain, above ∈ r.schema) (hlong : room < chain.length)
    (hs : s.resolved = []) : ∃ e t, r.visit root room path p s = .error e t := by
  have hnone : ∀ place, s.typeAt? place = none := by
    intro place
    rw [Resolution.typeAt?, hs]
    rfl
  induction room generalizing p path chain with
  | zero =>
    obtain ⟨above, rest, rfl⟩ := List.exists_cons_of_length_pos hlong
    obtain ⟨q, others, hneeds, -⟩ := exists_needs_of_parent? hnames
      (List.isChain_cons_cons.mp hchain).1 (hmem above List.mem_cons_self)
    exact settle_eq_error hneeds (hnone _) ⟨_, s, rfl⟩
  | succ room ih =>
    obtain ⟨above, rest, rfl⟩ := List.exists_cons_of_length_pos (Nat.zero_lt_of_lt hlong)
    obtain ⟨hparent, hchain⟩ := List.isChain_cons_cons.mp hchain
    obtain ⟨habove, hrest⟩ := List.forall_mem_cons.mp hmem
    obtain ⟨q, others, hneeds, rfl⟩ := exists_needs_of_parent? hnames hparent habove
    exact settle_eq_error hneeds (hnone _) (ih hchain hrest (Nat.lt_of_succ_lt_succ hlong))

/-- A schema is refused if it starts with an entry whose supertypes are more than allowed. -/
theorem error_of_chain (hnames : (r.schema.map (·.name)).Nodup) {first : SchemaEntry}
    {rest chain : List SchemaEntry} (hfirst : r.schema = first :: rest)
    (hchain : List.IsChain (fun a b => a.parent? = some b.name) (first :: chain))
    (hmem : ∀ above ∈ chain, above ∈ r.schema) (hlong : max r.maxChain 1 ≤ chain.length) :
    ∃ e t, r.resolveAll ⟨cache, []⟩ = .error e t := by
  have hroom : r.maxChain - 1 < chain.length := by omega
  have hplaced : ∃ others, r.placed = ⟨first, 0⟩ :: others := by
    unfold placed
    rw [hfirst, List.zipIdx_cons, List.map_cons]
    exact ⟨_, rfl⟩
  obtain ⟨others, hothers⟩ := hplaced
  obtain ⟨e, t, hvisit⟩ : ∃ e t,
      r.visit first.name (r.maxChain - 1) [] ⟨first, 0⟩ ⟨cache, []⟩ = .error e t :=
    visit_eq_error hnames first.name hchain hmem hroom rfl
  refine ⟨e, t, ?_⟩
  unfold resolveAll
  rw [hothers]
  refine Step.bind_eq_error_iff.mpr (.inl ?_)
  exact Step.bind_eq_error_iff.mpr (.inr ⟨_, _, rfl, hvisit⟩)

/-! ## Dependent entries last -/

/-- No entry depends on itself or on a later one. -/
structure NeedsFirst (schema : List SchemaEntry) : Prop where
  irreflexive : ∀ a, ¬ Depends schema a a
  ordered : schema.Pairwise fun a b => ¬ Depends schema a b

/-- An entry whose needs are resolved is built right away, whatever the limit. -/
theorem settle_eq_build {deeper : PlacedEntry → Resolve RuntimeType} {path : List Nat}
    (hneeds : ∀ need ∈ r.needs p.entry, (s.typeAt? need.place).isSome) :
    r.settle deeper path p s = r.build p s := by
  have hnothing : ∀ items : List PlacedEntry, (∀ need ∈ items, (s.typeAt? need.place).isSome) →
      items.forM (await deeper (p.place :: path)) s = .ok ⟨⟩ s := by
    intro items hitems
    induction items with
    | nil => rfl
    | cons need rest ih =>
      obtain ⟨hneed, hrest⟩ := List.forall_mem_cons.mp hitems
      refine Step.bind_eq_ok_iff.mpr ⟨⟨⟩, s, ?_, ih hrest⟩
      refine Step.bind_eq_ok_iff.mpr ⟨s, s, rfl, ?_⟩
      obtain ⟨type, htype⟩ := Option.isSome_iff_exists.mp hneed
      rw [htype]
      rfl
  rw [settle_eq]
  cases hbuild : r.build p s with
  | ok type t => exact Step.bind_eq_ok_iff.mpr ⟨⟨⟩, s, hnothing _ hneeds, hbuild⟩
  | error e t =>
    exact Step.bind_eq_error_iff.mpr (.inr ⟨⟨⟩, s, hnothing _ hneeds, hbuild⟩)

theorem visit_eq_build {root : String} {room : Nat} {path : List Nat}
    (hneeds : ∀ need ∈ r.needs p.entry, (s.typeAt? need.place).isSome) :
    r.visit root room path p s = r.build p s := by
  cases room <;> exact settle_eq_build hneeds

/-- In a resolvable schema an entry whose needs are resolved gets its type. -/
theorem Steady.exists_resolve {ds : Set Descriptor} (hnames : (r.schema.map (·.name)).Nodup)
    (hlocals : r.locals.Consistent ds) (hresolvable : Resolvable r.schema r.locals cache)
    (hs : r.Steady cache s) (hp : p ∈ r.placed)
    (hneeds : ∀ need ∈ r.needs p.entry, (s.typeAt? need.place).isSome) :
    ∃ type t, r.resolve p s = .ok type t ∧ r.Steady cache t ∧ Extends [] s t ∧
      t.typeAt? p.place = some type := by
  cases hnone : s.typeAt? p.place with
  | some type =>
    exact ⟨type, s, Step.bind_eq_ok_iff.mpr ⟨s, s, rfl, by rw [hnone]; rfl⟩, hs, .refl _ _, hnone⟩
  | none =>
    rcases steady_advances hnames hlocals p hp s hs hnone hneeds with
      ⟨type, t, hbuild, ht, hcons⟩ | ⟨e, t, -, hunresolvable, -⟩
    · refine ⟨type, t, Step.bind_eq_ok_iff.mpr ⟨s, s, rfl, ?_⟩, ht,
        extends_of_cons hnone hcons List.not_mem_nil⟩
      rw [hnone]
      exact (visit_eq_build hneeds).trans hbuild
    · exact absurd hresolvable hunresolvable

/-- Entries after those that they depend on are resolved one by one, if the schema is resolvable at
all: when the turn of an entry comes, all entries before it are resolved. -/
theorem accepts_of_needsFirst {ds : Set Descriptor} (hnames : (r.schema.map (·.name)).Nodup)
    (hlocals : r.locals.Consistent ds) (hcache : cache.Indexed) (hfirst : NeedsFirst r.schema)
    (hresolvable : Resolvable r.schema r.locals cache) : r.Accepts cache := by
  have hordered : r.placed.Pairwise fun a b => ¬ Depends r.schema a.entry b.entry := by
    have hentries : (r.placed.map (·.entry)).Pairwise fun a b => ¬ Depends r.schema a b := by
      rw [map_entry_placed]
      exact hfirst.ordered
    exact List.pairwise_map.mp hentries
  suffices heach : ∀ done rest, r.placed = done ++ rest → ∀ s, r.Steady cache s →
      (∀ p ∈ done, (s.typeAt? p.place).isSome) →
      ∃ types t, Step.each r.resolve rest s = .ok types t from
    heach [] r.placed rfl ⟨cache, []⟩ (steady_start hcache) nofun
  intro done rest
  induction rest generalizing done with
  | nil => exact fun _ s _ _ => ⟨[], s, rfl⟩
  | cons p rest ih =>
    intro hsplit s hs hdone
    have hp : p ∈ r.placed := hsplit ▸ List.mem_append.mpr (.inr List.mem_cons_self)
    have hneeds : ∀ need ∈ r.needs p.entry, (s.typeAt? need.place).isSome := by
      intro need hneed
      have hdepends := depends_of_needs hp hneed
      have hmem := mem_placed_of_needs hneed
      rw [hsplit] at hordered hmem
      have hlater := (List.pairwise_append.mp hordered).2.1
      rcases List.mem_append.mp hmem with hmem | hmem
      · exact hdone need hmem
      · rcases List.mem_cons.mp hmem with rfl | hmem
        · exact absurd hdepends (hfirst.irreflexive _)
        · exact absurd hdepends ((List.pairwise_cons.mp hlater).1 need hmem)
    obtain ⟨type, t, hrun, ht, hextends, hfound⟩ :=
      hs.exists_resolve hnames hlocals hresolvable hp hneeds
    have hdone' : ∀ q ∈ done ++ [p], (t.typeAt? q.place).isSome := by
      rw [List.forall_mem_append, List.forall_mem_singleton, hfound]
      exact ⟨fun q hq => hextends.isSome (hdone q hq), rfl⟩
    obtain ⟨types, u, hrest⟩ :=
      ih (done ++ [p]) (by rw [hsplit, List.append_assoc]; rfl) t ht hdone'
    exact ⟨type :: types, u, Step.each_cons_eq_ok_iff.mpr ⟨type, t, types, hrun, hrest, rfl⟩⟩

/-! ## Orders of one schema -/

/-- In another order a schema that was accepted is accepted, or refused for a long chain. -/
theorem Accepts.of_perm (h : r.Accepts cache) (hnames : (r.schema.map (·.name)).Nodup)
    (hlocals : r.locals.Reached Set.univ) (hcache : cache.Attained)
    (hperm : schema.Perm r.schema) :
    (r.withSchema schema).Accepts cache ∨
      ∃ root t chain, (r.withSchema schema).resolveAll ⟨cache, []⟩ =
          .error (.synthesisFailure (.dependenciesTooDeep root r.maxChain)) t ∧
        List.IsChain (Depends r.schema) chain ∧ max r.maxChain 1 < chain.length := by
  have hconsistent := hlocals.consistent
  obtain ⟨hresolvable, hacyclic⟩ := h.resolvable hnames hconsistent hcache.indexed
  have hdepends : Depends schema = Depends r.schema := depends_of_mem_iff fun _ => hperm.mem_iff
  have hnames' : (schema.map (·.name)).Nodup := (hperm.map _).nodup_iff.mpr hnames
  rcases yields_standing (r := r.withSchema schema) hnames' hconsistent hcache.indexed with
    ⟨types, t, hrun, -⟩ | ⟨e, t, hrun, hrefused | ⟨hunresolvable, -⟩⟩
  · exact .inl ⟨types, t, hrun⟩
  · cases hrefused with
    | @cyclic a hcycle => exact absurd (hdepends ▸ hcycle) (hacyclic a)
    | @deep chain root hchain hlong => exact .inr ⟨root, t, chain, hrun, hdepends ▸ hchain, hlong⟩
  · exact absurd (hresolvable.of_mem_iff fun _ => hperm.mem_iff.symm) hunresolvable

/-- **The order of entries.** In another order a schema that was accepted is accepted too, or it is
refused for a chain that is longer than allowed; so without such chains the order does not matter.
With one, a schema is refused that starts with an entry whose supertypes are more than allowed,
while an order in which entries come after those that they depend on is accepted or refused without
regard to the limit. -/
theorem accepts_of_perm (hnames : (r.schema.map (·.name)).Nodup)
    (hlocals : r.locals.Reached Set.univ) (hcache : cache.Attained) (hperm : schema.Perm r.schema) :
    (r.Accepts cache → (r.withSchema schema).Accepts cache ∨
      ∃ root t chain, (r.withSchema schema).resolveAll ⟨cache, []⟩ =
          .error (.synthesisFailure (.dependenciesTooDeep root r.maxChain)) t ∧
        List.IsChain (Depends r.schema) chain ∧ max r.maxChain 1 < chain.length) ∧
    ((∀ chain, List.IsChain (Depends r.schema) chain → chain.length ≤ max r.maxChain 1) →
      (r.Accepts cache ↔ (r.withSchema schema).Accepts cache)) ∧
    (∀ first rest chain, schema = first :: rest →
      List.IsChain (fun a b => a.parent? = some b.name) (first :: chain) →
      (∀ above ∈ chain, above ∈ r.schema) → max r.maxChain 1 < (first :: chain).length →
      ∃ e t, (r.withSchema schema).resolveAll ⟨cache, []⟩ = .error e t) ∧
    (NeedsFirst schema → ∀ limit,
      (r.withSchema schema).Accepts cache ↔ Accepts ⟨schema, r.locals, limit⟩ cache) := by
  have hdepends : Depends schema = Depends r.schema := depends_of_mem_iff fun _ => hperm.mem_iff
  have hnames' : (schema.map (·.name)).Nodup := (hperm.map _).nodup_iff.mpr hnames
  refine ⟨fun h => h.of_perm hnames hlocals hcache hperm, fun hshort => ⟨fun h => ?_, fun h => ?_⟩,
    fun first rest chain hfirst hchain hmem hlong => ?_, fun hfirst limit => ?_⟩
  · rcases h.of_perm hnames hlocals hcache hperm with haccepts | ⟨root, t, chain, -, hchain, hlong⟩
    · exact haccepts
    · exact absurd (hshort chain hchain) (Nat.not_le.mpr hlong)
  · rcases h.of_perm hnames' hlocals hcache hperm.symm with
      haccepts | ⟨root, t, chain, -, hchain, hlong⟩
    · exact haccepts
    · exact absurd (hshort chain (hdepends ▸ hchain)) (Nat.not_le.mpr hlong)
  · exact error_of_chain (r := r.withSchema schema) hnames' hfirst hchain
      (fun above habove => hperm.mem_iff.mpr (hmem above habove)) (Nat.lt_succ_iff.mp hlong)
  · have haccepts : ∀ limit, Accepts ⟨schema, r.locals, limit⟩ cache ↔
        Resolvable schema r.locals cache := by
      refine fun limit => ⟨fun h => ?_, fun h => ?_⟩
      · exact (Accepts.resolvable (r := ⟨schema, r.locals, limit⟩) hnames' hlocals.consistent
          hcache.indexed h).1
      · exact accepts_of_needsFirst (r := ⟨schema, r.locals, limit⟩) hnames' hlocals.consistent
          hcache.indexed hfirst h
    exact (haccepts r.maxChain).trans (haccepts limit).symm

/-- A type and one that extends it, needs first. -/
def pair : Resolver where
  schema := [⟨"A", .composite, none, [], []⟩, ⟨"B", .composite, some "A", [], []⟩]
  locals := .empty 0
  maxChain := 1

/-- Needs first, the pair is accepted by a receiver that allows no entry to depend on another. -/
theorem accepts_pair : pair.Accepts (.empty 1) :=
  Step.exists_of_succeeds (by decide +kernel)

/-- In the other order it is refused. -/
theorem accepts_of_perm_pair : pair.Accepts (.empty 1) ∧
    ∃ e t, (pair.withSchema pair.schema.reverse).resolveAll ⟨.empty 1, []⟩ = .error e t := by
  have hcache : SynthesisCache.Attained (.empty 1) := .empty 1 Descriptor.digest
  have horders := accepts_of_perm (r := pair) (by decide) (.empty 0) hcache pair.schema.reverse_perm
  refine ⟨accepts_pair, horders.2.2.1 ⟨"B", .composite, some "A", [], []⟩ _
    [⟨"A", .composite, none, [], []⟩] rfl ?_ ?_ ?_⟩
  · exact .cons_cons rfl (.singleton _)
  · exact fun above habove => List.mem_cons.mpr (.inl (List.mem_singleton.mp habove))
  · decide

/-- A chain that is longer than allowed is not refused in every order. -/
theorem not_forall_order_refused :
    ¬ ∀ (r : Resolver) (schema : List SchemaEntry) (cache : SynthesisCache),
      (r.schema.map (·.name)).Nodup → r.locals.Reached Set.univ → cache.Attained →
      schema.Perm r.schema →
      ((∃ chain, List.IsChain (Depends r.schema) chain ∧ r.maxChain < chain.length) →
        ∃ e t, (r.withSchema schema).resolveAll ⟨cache, []⟩ = .error e t) ∧
      (r.Accepts cache ↔ (r.withSchema schema).Accepts cache) := by
  intro hclaim
  have hpair := hclaim pair pair.schema.reverse (.empty 1) (by decide) (.empty 0)
    (.empty 1 Descriptor.digest) pair.schema.reverse_perm
  obtain ⟨types, t, hrun⟩ := hpair.2.mp accepts_pair
  have hrefused : Step.succeeds (pair.withSchema pair.schema.reverse).resolveAll
      ⟨.empty 1, []⟩ = false := by decide +kernel
  rw [Step.succeeds, hrun] at hrefused
  cases hrefused

end Resolver

end ObjectEnvelope
