import Mathlib.Data.List.Chain
import ObjectEnvelope.Envelope.Resolution
import ObjectEnvelope.Proofs.Lists
import ObjectEnvelope.Proofs.Runs

/-!
# Resolving a schema

The entries of a schema are resolved after those that they depend on, along chains of limited
length. As soon as each entry can be resolved once what it needs is, a resolution succeeds, or it is
refused for a reason (`Resolver.Advances.yields_resolveAll`): an entry depends on itself, or a chain
is too long (`Resolver.Refusal`). Schemas `WithinChains` give neither reason.
-/

namespace ObjectEnvelope

/-- The error says that a resolution was refused for what entries depend on. -/
inductive WireError.OfDependencies : WireError → Prop
  | cyclic (name : String) : OfDependencies (.synthesisFailure (.cyclicDependency name))
  | deep (name : String) (limit : Nat) :
      OfDependencies (.synthesisFailure (.dependenciesTooDeep name limit))

namespace SchemaEntry

/-- The second entry has the name of the supertype or of an interface of the first. -/
def Depends (schema : List SchemaEntry) (a b : SchemaEntry) : Prop :=
  a ∈ schema ∧ b ∈ schema ∧ b.name ∈ a.parent?.toList ++ a.interfaces

/-- No entry depends on itself, however indirectly, and no chain of entries of which each depends on
the next has more than `limit` of them; an entry by itself is never too many. -/
structure WithinChains (schema : List SchemaEntry) (limit : Nat) : Prop where
  acyclic : ∀ a, ¬ Relation.TransGen (Depends schema) a a
  short : ∀ chain, List.IsChain (Depends schema) chain → chain.length ≤ max limit 1

/-- Where no entry depends on another, no chain is too long. -/
theorem withinChains_of_not_depends {schema : List SchemaEntry} (h : ∀ a b, ¬ Depends schema a b)
    (limit : Nat) : WithinChains schema limit := by
  constructor
  · intro a ha
    obtain ⟨b, -, hb⟩ := Relation.TransGen.tail'_iff.mp ha
    exact h b a hb
  · intro chain hchain
    match chain, hchain with
    | [], _ => exact Nat.zero_le _
    | [_], _ => exact Nat.le_max_right _ _
    | a :: b :: _, hchain => exact absurd (List.isChain_cons_cons.mp hchain).1 (h a b)

end SchemaEntry

namespace Resolver

open SchemaEntry

variable {r : Resolver} {p q : PlacedEntry} {s t : Resolution}

/-! ## Entries and places -/

theorem mem_placed_iff : p ∈ r.placed ↔ r.schema[p.place]? = some p.entry := by
  unfold placed
  simp only [List.mem_map, Prod.exists, List.mem_zipIdx_iff_getElem?]
  constructor
  · rintro ⟨entry, place, h, rfl⟩
    exact h
  · exact fun h => ⟨p.entry, p.place, h, rfl⟩

theorem mem_schema_of_placed (hp : p ∈ r.placed) : p.entry ∈ r.schema :=
  List.mem_of_getElem? (mem_placed_iff.mp hp)

theorem exists_placed {entry : SchemaEntry} (h : entry ∈ r.schema) :
    ∃ p ∈ r.placed, p.entry = entry := by
  obtain ⟨place, hplace⟩ := List.mem_iff_getElem?.mp h
  exact ⟨⟨entry, place⟩, mem_placed_iff.mpr hplace, rfl⟩

theorem getElem?_placed (r : Resolver) (place : Nat) :
    r.placed[place]? = r.schema[place]?.map fun entry => ⟨entry, place⟩ := by
  unfold placed
  rw [List.getElem?_map, List.getElem?_zipIdx, Option.map_map, Nat.zero_add]
  rfl

theorem map_entry_placed (r : Resolver) : r.placed.map (·.entry) = r.schema := by
  simp [placed, List.map_map, Function.comp_def]

/-- A place has one entry. -/
theorem eq_of_place (hp : p ∈ r.placed) (hq : q ∈ r.placed) (h : p.place = q.place) : p = q := by
  rw [mem_placed_iff] at hp hq
  rw [h, hq, Option.some_inj] at hp
  cases p
  cases q
  simp_all

theorem mem_of_entry?_eq_some {name : String} (h : r.entry? name = some q) :
    q ∈ r.placed ∧ q.entry.name = name := by
  unfold entry? at h
  exact ⟨List.mem_reverse.mp (List.mem_of_find?_eq_some h), by simpa using List.find?_some h⟩

theorem exists_entry?_of_mem {entry : SchemaEntry} (h : entry ∈ r.schema) :
    ∃ q, r.entry? entry.name = some q := by
  obtain ⟨p, hp, rfl⟩ := exists_placed h
  cases hentry : r.entry? p.entry.name with
  | none =>
    unfold entry? at hentry
    simpa using List.find?_eq_none.mp hentry p (List.mem_reverse.mpr hp)
  | some q => exact ⟨q, rfl⟩

/-- In a schema that has each name once, an entry is found by its name. -/
theorem exists_entry?_eq (hnames : (r.schema.map (·.name)).Nodup) {entry : SchemaEntry}
    (h : entry ∈ r.schema) : ∃ q, r.entry? entry.name = some q ∧ q.entry = entry := by
  obtain ⟨q, hq⟩ := exists_entry?_of_mem h
  obtain ⟨hplaced, hname⟩ := mem_of_entry?_eq_some hq
  exact ⟨q, hq, List.inj_on_of_nodup_map hnames (mem_schema_of_placed hplaced) h hname⟩

theorem mem_placed_of_needs {entry : SchemaEntry} (h : q ∈ r.needs entry) : q ∈ r.placed := by
  obtain ⟨name, -, hq⟩ := List.mem_filterMap.mp h
  exact (mem_of_entry?_eq_some hq).1

/-- The entry of the supertype is needed. -/
theorem mem_needs_of_parent? {entry : SchemaEntry} {name : String}
    (hparent : entry.parent? = some name) (hq : r.entry? name = some q) : q ∈ r.needs entry := by
  refine List.mem_filterMap.mpr ⟨name, List.mem_append.mpr (.inl ?_), hq⟩
  rw [hparent]
  exact List.mem_singleton.mpr rfl

/-- An entry without a supertype is declared by itself. -/
theorem describe_of_parent?_eq_none {entry : SchemaEntry} (s : Resolution)
    (hparent : entry.parent? = none) :
    r.describe s entry =
      Descriptor.declare ⟨entry.name, entry.kind, entry.fields, entry.interfaces⟩ none := by
  unfold describe
  rw [hparent]
  rfl

/-- Once its needs are resolved, an entry is declared below the type of its supertype. -/
theorem exists_describe_of_parent? {entry : SchemaEntry} {name : String} {s : Resolution}
    (hparent : entry.parent? = some name) (hq : r.entry? name = some q)
    (hneeds : ∀ need ∈ r.needs entry, (s.typeAt? need.place).isSome) :
    ∃ t, s.typeAt? q.place = some t ∧ r.describe s entry =
      Descriptor.declare ⟨entry.name, entry.kind, entry.fields, entry.interfaces⟩
        (some t.descriptor) := by
  obtain ⟨t, ht⟩ := Option.isSome_iff_exists.mp (hneeds q (mem_needs_of_parent? hparent hq))
  have hresolved : r.parent s name entry.name = .ok t.descriptor := by
    simp only [parent, hq, Option.bind_some, ht]
    rfl
  refine ⟨t, ht, ?_⟩
  unfold describe
  simp only [hparent, Option.mapM_some, hresolved]
  rfl

/-- What an entry needs, it depends on. -/
theorem depends_of_needs (hp : p ∈ r.placed) (h : q ∈ r.needs p.entry) :
    Depends r.schema p.entry q.entry := by
  obtain ⟨name, hname, hq⟩ := List.mem_filterMap.mp h
  obtain ⟨hplaced, rfl⟩ := mem_of_entry?_eq_some hq
  exact ⟨mem_schema_of_placed hp, mem_schema_of_placed hplaced, hname⟩

/-- The types found, with one more. -/
theorem typeAt?_of_cons {type : RuntimeType} {place : Nat}
    (h : t.resolved = (place, type) :: s.resolved) (other : Nat) :
    t.typeAt? other = if other = place then some type else s.typeAt? other := by
  unfold Resolution.typeAt?
  rw [h]
  by_cases heq : other = place
  · simp [heq]
  · simp [heq, List.lookup_cons, beq_false_of_ne heq]

/-- What is wanted of the types found, and of one more for its entry, is true of all of them. -/
theorem forall_typeAt?_of_cons {type : RuntimeType} {wanted : PlacedEntry → RuntimeType → Prop}
    (hp : p ∈ r.placed) (ht : t.resolved = (p.place, type) :: s.resolved) (htype : wanted p type)
    (hs : ∀ q ∈ r.placed, ∀ found, s.typeAt? q.place = some found → wanted q found) :
    ∀ q ∈ r.placed, ∀ found, t.typeAt? q.place = some found → wanted q found := by
  intro q hq found hfound
  rw [typeAt?_of_cons ht] at hfound
  split at hfound
  · next hplace =>
    cases hfound
    rwa [eq_of_place hq hp hplace]
  · exact hs q hq found hfound

/-- A type is built of the descriptor of the entry, and kept under its place. -/
theorem build_eq_ok_iff {type : RuntimeType} :
    r.build p s = .ok type t ↔
      ∃ d u, r.describe s p.entry = .ok d ∧ r.typeOf d s = .ok type u ∧
        t = { u with resolved := (p.place, type) :: u.resolved } := by
  simp only [build, Step.bind_eq_ok_iff, Step.get_eq_ok_iff, Step.ofExcept_eq_ok_iff,
    Step.modify_eq_ok_iff, Step.pure_eq_ok_iff]
  constructor
  · rintro ⟨_, _, ⟨rfl, rfl⟩, d, _, ⟨hd, rfl⟩, _, u, htype, _, _, rfl, rfl, rfl⟩
    exact ⟨d, u, hd, htype, rfl⟩
  · rintro ⟨d, u, hd, htype, rfl⟩
    exact ⟨s, s, ⟨rfl, rfl⟩, d, s, ⟨hd, rfl⟩, type, u, htype, ⟨⟩, _, rfl, rfl, rfl⟩

theorem build_eq_error_iff {e : WireError} :
    r.build p s = .error e t ↔
      (r.describe s p.entry = .error e ∧ t = s) ∨
        ∃ d, r.describe s p.entry = .ok d ∧ r.typeOf d s = .error e t := by
  simp only [build, Step.bind_eq_error_iff, Step.get_eq_ok_iff, Step.get_ne_error,
    Step.ofExcept_eq_error_iff, Step.ofExcept_eq_ok_iff, Step.modify_ne_error, Step.pure_ne_error,
    false_or, and_false, exists_false, or_false]
  constructor
  · rintro ⟨_, _, ⟨rfl, rfl⟩, ⟨he, rfl⟩ | ⟨d, _, ⟨hd, rfl⟩, htype⟩⟩
    · exact .inl ⟨he, rfl⟩
    · exact .inr ⟨d, hd, htype⟩
  · rintro (⟨he, rfl⟩ | ⟨d, hd, htype⟩)
    · exact ⟨_, _, ⟨rfl, rfl⟩, .inl ⟨he, rfl⟩⟩
    · exact ⟨_, _, ⟨rfl, rfl⟩, .inr ⟨d, _, ⟨hd, rfl⟩, htype⟩⟩

theorem build_eq_ok {type : RuntimeType} {d : Descriptor} (hd : r.describe s p.entry = .ok d)
    (htype : r.typeOf d s = .ok type t) :
    r.build p s = .ok type { t with resolved := (p.place, type) :: t.resolved } :=
  build_eq_ok_iff.mpr ⟨d, t, hd, htype, rfl⟩

/-! ## Refusals -/

/-- Why a resolution is refused, although every entry could be built: an entry depends on itself, or
a chain of entries of which each depends on the next is longer than allowed. -/
inductive Refusal (r : Resolver) : WireError → Prop
  | cyclic {a : SchemaEntry} (h : Relation.TransGen (Depends r.schema) a a) :
      Refusal r (.synthesisFailure (.cyclicDependency a.name))
  | deep {chain : List SchemaEntry} (root : String) (hchain : List.IsChain (Depends r.schema) chain)
      (hlong : max r.maxChain 1 < chain.length) :
      Refusal r (.synthesisFailure (.dependenciesTooDeep root r.maxChain))

/-- Within the chain limit nothing is refused. -/
theorem not_refusal (h : WithinChains r.schema r.maxChain) (e : WireError) : ¬ r.Refusal e := by
  rintro (hcycle | ⟨root, hchain, hlong⟩)
  · exact h.acyclic _ hcycle
  · exact Nat.not_lt.mpr (h.short _ hchain) hlong

/-- The entries at the places, nearest first, are there, and each depends on the one before it; the
first depends on `p`. -/
def Waiting (r : Resolver) (path : List Nat) (p : PlacedEntry) : Prop :=
  ∃ stack : List PlacedEntry, stack.map (·.place) = path ∧ (∀ q ∈ stack, q ∈ r.placed) ∧
    List.IsChain (fun a b => Depends r.schema b.entry a.entry) (p :: stack)

/-- With an entry, whatever waits for it waits for its needs. -/
theorem Waiting.needs {path : List Nat} (h : r.Waiting path p) (hp : p ∈ r.placed)
    (hq : q ∈ r.needs p.entry) : r.Waiting (p.place :: path) q := by
  obtain ⟨stack, rfl, hstack, hchain⟩ := h
  exact ⟨p :: stack, rfl, List.forall_mem_cons.mpr ⟨hp, hstack⟩,
    .cons_cons (depends_of_needs hp hq) hchain⟩

/-- An entry that waits for itself depends on itself. -/
theorem Waiting.refusal_of_mem {path : List Nat} (h : r.Waiting path p) (hp : p ∈ r.placed)
    (hmem : p.place ∈ path) : r.Refusal (.synthesisFailure (.cyclicDependency p.entry.name)) := by
  obtain ⟨stack, rfl, hstack, hchain⟩ := h
  obtain ⟨q, hq, hplace⟩ := List.mem_map.mp hmem
  have hreaches : Relation.TransGen (fun a b => Depends r.schema b.entry a.entry) p q :=
    (hchain.imp fun _ _ h => .single h).rel_cons hq
  rw [eq_of_place (hstack q hq) hp hplace] at hreaches
  refine .cyclic ?_
  have hlift : Relation.TransGen (Function.swap (Depends r.schema)) p.entry p.entry :=
    hreaches.lift PlacedEntry.entry fun _ _ h => h
  exact Relation.transGen_swap.mp hlift

/-- A chain that the limit does not allow. -/
theorem Waiting.refusal_of_length {path : List Nat} (h : r.Waiting path p)
    (hlong : max r.maxChain 1 ≤ path.length) (root : String) :
    r.Refusal (.synthesisFailure (.dependenciesTooDeep root r.maxChain)) := by
  obtain ⟨stack, rfl, -, hchain⟩ := h
  have hreverse : List.IsChain (Depends r.schema) ((p :: stack).map (·.entry)).reverse := by
    rw [List.isChain_reverse, List.isChain_map]
    exact hchain
  refine .deep root hreverse ?_
  simpa using Nat.lt_succ_of_le hlong

/-! ## Visits -/

variable {inv : Resolution → Prop} {fault : WireError → Prop} {path : List Nat}

/-- Once the needs of an entry are resolved, it is resolved next, or there is a fault. -/
def Advances (r : Resolver) (inv : Resolution → Prop) (fault : WireError → Prop) : Prop :=
  ∀ p ∈ r.placed, ∀ s, inv s → s.typeAt? p.place = none →
    (∀ need ∈ r.needs p.entry, (s.typeAt? need.place).isSome) →
    (r.build p).Yields s (fun type t => inv t ∧ t.resolved = (p.place, type) :: s.resolved) fault

/-- Types that were found are kept, and what waits is not resolved in the meantime. -/
structure Extends (waiting : List Nat) (s t : Resolution) : Prop where
  kept : ∀ place type, s.typeAt? place = some type → t.typeAt? place = some type
  waits : ∀ place ∈ waiting, s.typeAt? place = none → t.typeAt? place = none

theorem Extends.refl (waiting : List Nat) (s : Resolution) : Extends waiting s s :=
  ⟨fun _ _ h => h, fun _ _ h => h⟩

theorem Extends.trans {waiting : List Nat} {u : Resolution} (h : Extends waiting s t)
    (h' : Extends waiting t u) : Extends waiting s u :=
  ⟨fun place type hs => h'.kept place type (h.kept place type hs),
    fun place hplace hs => h'.waits place hplace (h.waits place hplace hs)⟩

theorem Extends.isSome {waiting : List Nat} (h : Extends waiting s t) {place : Nat}
    (hs : (s.typeAt? place).isSome) : (t.typeAt? place).isSome := by
  obtain ⟨type, htype⟩ := Option.isSome_iff_exists.mp hs
  rw [h.kept place type htype]
  rfl

/-- A type for an entry that was not resolved leaves all others alone. -/
theorem extends_of_cons {type : RuntimeType} (hnone : s.typeAt? p.place = none)
    (ht : t.resolved = (p.place, type) :: s.resolved) (hpath : p.place ∉ path) :
    Extends path s t ∧ t.typeAt? p.place = some type := by
  have hother : ∀ place, place ≠ p.place → t.typeAt? place = s.typeAt? place :=
    fun place hne => by rw [typeAt?_of_cons ht, if_neg hne]
  refine ⟨⟨fun place found hplace => ?_, fun place hplace hs => ?_⟩, ?_⟩
  · rw [hother place]
    · exact hplace
    · rintro rfl
      cases hnone.symm.trans hplace
  · rw [hother place]
    · exact hs
    · rintro rfl
      exact hpath hplace
  · rw [typeAt?_of_cons ht, if_pos rfl]

/-- The step resolves the entry and leaves what waits for it alone, unless the resolution is refused
or there is a fault. -/
def Finds (r : Resolver) (inv : Resolution → Prop) (fault : WireError → Prop) (path : List Nat)
    (step : Resolve RuntimeType) (p : PlacedEntry) (s : Resolution) : Prop :=
  step.Yields s (fun type t => inv t ∧ Extends path s t ∧ t.typeAt? p.place = some type)
    fun e => r.Refusal e ∨ fault e

/-- What an entry does about one of its needs. -/
def await (deeper : PlacedEntry → Resolve RuntimeType) (path : List Nat) (need : PlacedEntry) :
    Resolve PUnit := do
  if ((← get).typeAt? need.place).isNone then
    if need.place ∈ path then
      throw (.synthesisFailure (.cyclicDependency need.entry.name))
    discard (deeper need)

theorem settle_eq (deeper : PlacedEntry → Resolve RuntimeType) (path : List Nat)
    (p : PlacedEntry) : r.settle deeper path p =
      (r.needs p.entry).forM (await deeper (p.place :: path)) >>= fun _ => r.build p := rfl

/-- A need is resolved, unless it was before; one that waits for itself is refused. -/
theorem yields_await {deeper : PlacedEntry → Resolve RuntimeType} (hs : inv s) (hq : q ∈ r.placed)
    (hpath : r.Waiting path q)
    (hdeeper : s.typeAt? q.place = none → q.place ∉ path → r.Finds inv fault path (deeper q) q s) :
    (await deeper path q).Yields s
      (fun _ t => inv t ∧ Extends path s t ∧ (t.typeAt? q.place).isSome)
      fun e => r.Refusal e ∨ fault e := by
  refine Step.yields_get.bind ?_
  rintro _ _ ⟨rfl, rfl⟩
  by_cases hnone : (s.typeAt? q.place).isNone
  · rw [if_pos hnone]
    by_cases hwaiting : q.place ∈ path
    · rw [if_pos hwaiting]
      exact .inr ⟨_, s, rfl, .inl (hpath.refusal_of_mem hq hwaiting)⟩
    · rw [if_neg hwaiting]
      rcases hdeeper (Option.isNone_iff_eq_none.mp hnone) hwaiting with
        ⟨type, t, hrun, ht, hextends, hfound⟩ | ⟨e, t, hrun, he⟩
      · exact .inl ⟨⟨⟩, t, Step.discard_eq_ok_iff.mpr ⟨type, hrun⟩, ht, hextends, hfound ▸ rfl⟩
      · exact .inr ⟨e, t, Step.discard_eq_error_iff.mpr hrun, he⟩
  · rw [if_neg hnone]
    refine .inl ⟨⟨⟩, s, rfl, hs, .refl _ _, ?_⟩
    rwa [← Option.not_isSome, Bool.not_eq_true', Bool.not_eq_false] at hnone

/-- An entry is resolved when each of its needs is. -/
theorem Advances.finds_settle (h : r.Advances inv fault) (hp : p ∈ r.placed) (hs : inv s)
    (hnone : s.typeAt? p.place = none) (hpath : p.place ∉ path) (hwaiting : r.Waiting path p)
    {deeper : PlacedEntry → Resolve RuntimeType}
    (hdeeper : ∀ need ∈ r.needs p.entry, ∀ t, inv t → t.typeAt? need.place = none →
      need.place ∉ p.place :: path →
      r.Finds inv fault (p.place :: path) (deeper need) need t) :
    r.Finds inv fault path (r.settle deeper path p) p s := by
  unfold Finds
  -- between two needs, those still to come are listed
  let between (rest : List PlacedEntry) (t : Resolution) : Prop :=
    inv t ∧ Extends (p.place :: path) s t ∧ (∀ need ∈ rest, need ∈ r.needs p.entry) ∧
      ∀ need ∈ r.needs p.entry, need ∈ rest ∨ (t.typeAt? need.place).isSome
  rw [settle_eq]
  refine Step.Yields.bind (Step.Yields.forM between (fun need rest t ht => ?_)
    ⟨hs, .refl _ _, fun _ h => h, fun _ h => .inl h⟩) ?_
  · obtain ⟨hinv, hextends, hrest, hdone⟩ := ht
    obtain ⟨hneed, hrest⟩ := List.forall_mem_cons.mp hrest
    refine (yields_await hinv (mem_placed_of_needs hneed) (hwaiting.needs hp hneed)
      (hdeeper need hneed t hinv)).mono ?_ fun _ he => he
    rintro - u ⟨hu, hextends', hsome⟩
    refine ⟨hu, hextends.trans hextends', hrest, fun other hother => ?_⟩
    rcases hdone other hother with hmem | hother
    · rcases List.mem_cons.mp hmem with rfl | hmem
      · exact .inr hsome
      · exact .inl hmem
    · exact .inr (hextends'.isSome hother)
  · rintro - t ⟨ht, hextends, -, hdone⟩
    have hresolved : ∀ need ∈ r.needs p.entry, (t.typeAt? need.place).isSome :=
      fun need hneed => (hdone need hneed).resolve_left List.not_mem_nil
    have hunresolved : t.typeAt? p.place = none := hextends.waits _ List.mem_cons_self hnone
    refine (h p hp t ht hunresolved hresolved).mono ?_ fun _ he => .inr he
    rintro type u ⟨hu, hcons⟩
    obtain ⟨hextends', hfound⟩ := extends_of_cons hunresolved hcons hpath
    have hkeep : Extends path s t :=
      ⟨hextends.kept, fun place hplace => hextends.waits place (List.mem_cons_of_mem _ hplace)⟩
    exact ⟨hu, hkeep.trans hextends', hfound⟩

/-- The induction is on the number of entries that the chain may still grow by; together with those
that wait they are as many as the limit allows. -/
theorem Advances.finds_visit (h : r.Advances inv fault) (root : String) {room : Nat}
    (hp : p ∈ r.placed) (hs : inv s) (hnone : s.typeAt? p.place = none) (hpath : p.place ∉ path)
    (hwaiting : r.Waiting path p) (hroom : path.length + room + 1 = max r.maxChain 1) :
    r.Finds inv fault path (r.visit root room path p) p s := by
  induction room generalizing p path s with
  | zero =>
    refine h.finds_settle hp hs hnone hpath hwaiting fun need hneed t _ _ _ => ?_
    refine .inr ⟨_, t, rfl, .inl ((hwaiting.needs hp hneed).refusal_of_length ?_ root)⟩
    rw [List.length_cons]
    omega
  | succ room ih =>
    refine h.finds_settle hp hs hnone hpath hwaiting fun need hneed t ht hnone' hpath' => ?_
    refine ih (mem_placed_of_needs hneed) ht hnone' hpath' (hwaiting.needs hp hneed) ?_
    rw [List.length_cons]
    omega

theorem Advances.finds_resolve (h : r.Advances inv fault) (hp : p ∈ r.placed) (hs : inv s) :
    r.Finds inv fault [] (r.resolve p) p s := by
  refine Step.yields_get.bind ?_
  rintro _ _ ⟨rfl, rfl⟩
  cases htype : s.typeAt? p.place with
  | some type => exact .inl ⟨type, s, rfl, hs, .refl _ _, htype⟩
  | none =>
    have hstart : r.Waiting [] p := ⟨[], rfl, by simp, .singleton p⟩
    have hroom : 0 + (r.maxChain - 1) + 1 = max r.maxChain 1 := by omega
    exact h.finds_visit p.entry.name hp hs htype List.not_mem_nil hstart hroom

/-- **Resolution.** Where entries can be resolved once their needs are, all entries of a schema are,
unless it is refused for what its entries depend on or there is a fault. -/
theorem Advances.yields_resolveAll (h : r.Advances inv fault) (hs : inv s) :
    Step.Yields r.resolveAll s
      (fun types t => inv t ∧ List.Forall₂
        (fun p type => p ∈ r.placed ∧ t.typeAt? p.place = some type) r.placed types)
      fun e => r.Refusal e ∨ fault e := by
  suffices heach : ∀ items, (∀ p ∈ items, p ∈ r.placed) → ∀ s, inv s →
      Step.Yields (Step.each r.resolve items) s
        (fun types t => inv t ∧ Extends [] s t ∧
          List.Forall₂ (fun p type => t.typeAt? p.place = some type) items types)
        fun e => r.Refusal e ∨ fault e from
    (heach r.placed (fun _ hp => hp) s hs).mono (fun _ _ ht => ⟨ht.1,
      (List.forall₂_and_left _ _).mpr ⟨fun _ hp => hp, ht.2.2⟩⟩) fun _ he => he
  intro items
  induction items with
  | nil => exact fun _ s hs => .inl ⟨[], s, rfl, hs, .refl _ _, .nil⟩
  | cons p rest ih =>
    intro hitems s hs
    obtain ⟨hp, hrest⟩ := List.forall_mem_cons.mp hitems
    refine (h.finds_resolve hp hs).bind fun type t ht => ?_
    obtain ⟨hinv, hextends, hfound⟩ := ht
    refine (ih hrest t hinv).bind fun types u hu => ?_
    obtain ⟨hinv', hextends', hall⟩ := hu
    exact .inl ⟨type :: types, u, rfl, hinv', hextends.trans hextends',
      .cons (hextends'.kept _ _ hfound) hall⟩

/-! ## Resolutions that stay sound -/

variable {wanted : PlacedEntry → RuntimeType → Prop} {kept : SynthesisCache → Prop}

/-- The types found so far are as wanted. -/
def Sound (r : Resolver) (wanted : PlacedEntry → RuntimeType → Prop)
    (kept : SynthesisCache → Prop) (s : Resolution) : Prop :=
  kept s.synthesis ∧ ∀ p ∈ r.placed, ∀ type, s.typeAt? p.place = some type → wanted p type

/-- Once what an entry needs is resolved, its type is found, and it is as wanted. -/
def Builds (r : Resolver) (wanted : PlacedEntry → RuntimeType → Prop)
    (kept : SynthesisCache → Prop) : Prop :=
  ∀ p ∈ r.placed, ∀ s, r.Sound wanted kept s →
    (∀ need ∈ r.needs p.entry, (s.typeAt? need.place).isSome) →
    ∃ type synthesis, r.build p s = .ok type ⟨synthesis, (p.place, type) :: s.resolved⟩ ∧
      kept synthesis ∧ wanted p type

/-- What all successful steps lead to may be wanted besides. -/
theorem Builds.and {wanted' : PlacedEntry → RuntimeType → Prop} {kept' : SynthesisCache → Prop}
    (h : r.Builds wanted kept)
    (hrun : ∀ p ∈ r.placed, ∀ s, r.Sound wanted' kept' s →
      (∀ need ∈ r.needs p.entry, (s.typeAt? need.place).isSome) →
      ∀ type t, r.build p s = .ok type t → kept' t.synthesis ∧ wanted' p type) :
    r.Builds (fun p type => wanted p type ∧ wanted' p type)
      fun cache => kept cache ∧ kept' cache := by
  intro p hp s hs hneeds
  have hleft : r.Sound wanted kept s :=
    ⟨hs.1.1, fun q hq type htype => (hs.2 q hq type htype).1⟩
  have hright : r.Sound wanted' kept' s :=
    ⟨hs.1.2, fun q hq type htype => (hs.2 q hq type htype).2⟩
  obtain ⟨type, synthesis, hbuild, hsynthesis, hwanted⟩ := h p hp s hleft hneeds
  obtain ⟨hsynthesis', hwanted'⟩ := hrun p hp s hright hneeds type _ hbuild
  exact ⟨type, synthesis, hbuild, ⟨hsynthesis, hsynthesis'⟩, hwanted, hwanted'⟩

/-- A wanted type joins those found so far. -/
theorem Sound.cons {type : RuntimeType} (hs : r.Sound wanted kept s) (hp : p ∈ r.placed)
    (ht : t.resolved = (p.place, type) :: s.resolved) (hsynthesis : kept t.synthesis)
    (htype : wanted p type) : r.Sound wanted kept t :=
  ⟨hsynthesis, forall_typeAt?_of_cons hp ht htype hs.2⟩

theorem Builds.advances (h : r.Builds wanted kept) :
    r.Advances (r.Sound wanted kept) fun _ => False := by
  intro p hp s hs _ hneeds
  obtain ⟨type, synthesis, hbuild, hsynthesis, hwanted⟩ := h p hp s hs hneeds
  exact .inl ⟨type, _, hbuild, hs.cons hp rfl hsynthesis hwanted, rfl⟩

/-- A schema whose entries can be built after what they need is resolved, each entry to a wanted
type, or is refused for what its entries depend on. -/
theorem Builds.yields_resolveAll (h : r.Builds wanted kept) (hs : r.Sound wanted kept s) :
    Step.Yields r.resolveAll s
      (fun types t => kept t.synthesis ∧ List.Forall₂ wanted r.placed types) r.Refusal := by
  refine (h.advances.yields_resolveAll hs).mono ?_ fun _ he => he.resolve_right id
  rintro types t ⟨ht, htypes⟩
  exact ⟨ht.1, htypes.imp fun p type hp => ht.2 p hp.1 type hp.2⟩

end Resolver

end ObjectEnvelope
