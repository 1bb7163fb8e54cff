import Mathlib.Data.Set.Card
import ObjectEnvelope.Payload.SchemaTable
import ObjectEnvelope.Proofs.Runs
import ObjectEnvelope.Proofs.Schema.Alike

/-!
# Schema tables

A table holds each name once. `SchemaTable.Sound` says which descriptors it holds: only such as
describe a type that was met, and all those that do. It is kept whenever a type is added, and a type
can be added as long as no two descriptors share a name with different digests
(`exists_describe`).
-/

namespace ObjectEnvelope

/-- The descriptor describes the type: it is in its lineage, or in that of a local type which is an
interface there. -/
inductive LocalTypes.Describes (locals : LocalTypes) (t : RuntimeType) : Descriptor → Prop
  | lineage {d : Descriptor} (hd : d ∈ t.descriptor.lineage) : Describes locals t d
  | interface {d e : Descriptor} {name : String} {k : RuntimeType}
      (hd : d ∈ t.descriptor.lineage) (hname : name ∈ d.interfaces)
      (hlocal : locals.lookup? name = some k) (he : e ∈ k.descriptor.lineage) :
      Describes locals t e

namespace LocalTypes

variable {locals : LocalTypes} {t u : RuntimeType} {d e : Descriptor}

theorem mem_lineageOf_iff {name : String} :
    d ∈ locals.lineageOf name ↔ ∃ k, locals.lookup? name = some k ∧ d ∈ k.descriptor.lineage := by
  unfold lineageOf
  cases locals.lookup? name <;> simp

theorem mem_closure_iff : d ∈ locals.closure t ↔ locals.Describes t d := by
  simp only [closure, List.mem_flatMap, List.mem_cons, mem_lineageOf_iff]
  constructor
  · rintro ⟨c, hc, rfl | ⟨name, hname, k, hlocal, hd⟩⟩
    · exact .lineage hc
    · exact .interface hc hname hlocal hd
  · rintro (hd | ⟨hc, hname, hlocal, hd⟩)
    · exact ⟨d, hd, .inl rfl⟩
    · exact ⟨_, hc, .inr ⟨_, hname, _, hlocal, hd⟩⟩

/-- Types that are alike are described alike. -/
theorem Describes.exists_alike (h : locals.Describes t d)
    (halike : t.descriptor.Alike u.descriptor) :
    ∃ e, locals.Describes u e ∧ d.Alike e := by
  cases h with
  | lineage hd =>
    obtain ⟨e, he, hde⟩ := halike.exists_mem_lineage hd
    exact ⟨e, .lineage he, hde⟩
  | interface hc hname hlocal hd =>
    obtain ⟨e, he, hce⟩ := halike.exists_mem_lineage hc
    exact ⟨d, .interface he (hce.level.interfaces.mem_iff.mp hname) hlocal hd, .refl d⟩

/-- With a descriptor, its supertypes describe the type. -/
theorem Describes.of_mem_lineage (h : locals.Describes t d) (he : e ∈ d.lineage) :
    locals.Describes t e := by
  cases h with
  | lineage hd => exact .lineage (Descriptor.lineage_subset hd e he)
  | interface hc hname hlocal hd =>
    exact .interface hc hname hlocal (Descriptor.lineage_subset hd e he)

theorem Describes.parent (h : locals.Describes t d) (hparent : d.parent? = some e) :
    locals.Describes t e :=
  h.of_mem_lineage (Descriptor.mem_lineage_of_parent? hparent)

/-- The descriptor describes one of the types. -/
def Collects (locals : LocalTypes) (used : RuntimeType → Prop) (d : Descriptor) : Prop :=
  ∃ t, used t ∧ locals.Describes t d

/-- No two of the descriptors that describe the types share a name and differ in their digest. -/
def Unambiguous (locals : LocalTypes) (used : RuntimeType → Prop) : Prop :=
  ∀ d e, locals.Collects used d → locals.Collects used e → d.name = e.name → d.digest = e.digest

/-- The names of the descriptors that describe the types. -/
def collectedNames (locals : LocalTypes) (used : RuntimeType → Prop) : Set String :=
  {name | ∃ d, locals.Collects used d ∧ d.name = name}

end LocalTypes

/-- Types of one digest have descriptors that are alike. -/
def ToldApart (used : RuntimeType → Prop) : Prop :=
  ∀ t u, used t → used u → t.digest = u.digest → t.descriptor.Alike u.descriptor

namespace SchemaTable

variable {locals : LocalTypes} {used : RuntimeType → Prop} {table after : SchemaTable}
  {t : RuntimeType} {d : Descriptor} {ds : List Descriptor}

/-- The table has a descriptor with the name and the digest. -/
def Held (table : SchemaTable) (d : Descriptor) : Prop :=
  ∃ e ∈ table.descriptors, e.name = d.name ∧ e.digest = d.digest

theorem Held.mono (hgrows : table.descriptors <+: after.descriptors) (h : table.Held d) :
    after.Held d := by
  obtain ⟨e, he, hed⟩ := h
  exact ⟨e, hgrows.subset he, hed⟩

/-- A name keeps its place when others are added. -/
theorem index?_of_prefix (hgrows : table.descriptors <+: after.descriptors) {name : String}
    {index : Nat} (h : table.index? name = some index) :
    after.index? name = some index ∧ index < after.descriptors.length := by
  obtain ⟨added, hadded⟩ := hgrows
  have hindex : after.index? name = some index := by
    unfold index? at h ⊢
    rw [← hadded, List.findIdx?_append, h]
    rfl
  exact ⟨hindex, (List.findIdx?_eq_some_iff_getElem.mp hindex).1⟩

/-! ## Additions -/

/-- What adding descriptors does to a table. -/
structure Adds (table : SchemaTable) (ds : List Descriptor) (after : SchemaTable) : Prop where
  described : after.described = table.described
  grows : table.descriptors <+: after.descriptors
  mem : ∀ d ∈ after.descriptors, d ∈ table.descriptors ∨ d ∈ ds
  held : ∀ d ∈ ds, after.Held d
  names : (table.descriptors.map (·.name)).Nodup → (after.descriptors.map (·.name)).Nodup
  length_le : table.descriptors.length ≤ capacity → after.descriptors.length ≤ capacity

theorem add_eq_ok_iff :
    table.add d = .ok after ↔
      (∃ e, table.descriptors.find? (·.name == d.name) = some e ∧ e.digest = d.digest ∧
        after = table) ∨
      (table.descriptors.find? (·.name == d.name) = none ∧
        table.descriptors.length < capacity ∧
        after = { table with descriptors := table.descriptors ++ [d] }) := by
  unfold add
  cases table.descriptors.find? (·.name == d.name) with
  | some e =>
    by_cases hdigest : e.digest = d.digest
    · simp [hdigest, eq_comm]
    · simp [hdigest]
  | none =>
    by_cases hfull : capacity ≤ table.descriptors.length
    · simp [hfull]
    · simp [hfull, Nat.not_le.mp hfull, eq_comm]

theorem Adds.of_add (h : table.add d = .ok after) : table.Adds [d] after := by
  rcases add_eq_ok_iff.mp h with ⟨e, hfind, hdigest, rfl⟩ | ⟨hfind, hlt, rfl⟩
  · have hname : e.name = d.name := by simpa using List.find?_some hfind
    refine ⟨rfl, List.prefix_rfl, fun _ => .inl, fun c hc => ?_, id, id⟩
    rw [List.mem_singleton.mp hc]
    exact ⟨e, List.mem_of_find?_eq_some hfind, hname, hdigest⟩
  · refine ⟨rfl, List.prefix_append _ _, fun c => List.mem_append.mp, fun c hc => ?_, ?_, ?_⟩
    · rw [List.mem_singleton.mp hc]
      exact ⟨d, by simp, rfl, rfl⟩
    · intro hnames
      have hfresh : ∀ e ∈ table.descriptors, e.name ≠ d.name := by simpa using hfind
      rw [List.map_append, List.nodup_append]
      refine ⟨hnames, by simp, ?_⟩
      simp only [List.mem_map, List.map_cons, List.map_nil, List.mem_singleton]
      rintro _ ⟨e, he, rfl⟩ _ rfl
      exact hfresh e he
    · intro _
      simpa using Nat.succ_le_of_lt hlt

theorem Adds.trans {between : SchemaTable} {es : List Descriptor} (h : table.Adds ds between)
    (h' : between.Adds es after) : table.Adds (ds ++ es) after := by
  refine ⟨h'.described.trans h.described, h.grows.trans h'.grows, fun d hd => ?_, fun d hd => ?_,
    h'.names ∘ h.names, h'.length_le ∘ h.length_le⟩
  · rcases h'.mem d hd with hd | hd
    · exact (h.mem d hd).imp_right fun hd => List.mem_append.mpr (.inl hd)
    · exact .inr (List.mem_append.mpr (.inr hd))
  · rcases List.mem_append.mp hd with hd | hd
    · exact (h.held d hd).mono h'.grows
    · exact h'.held d hd

theorem addAll_cons :
    table.addAll (d :: ds) = table.add d >>= fun between => between.addAll ds := rfl

theorem Adds.of_addAll (h : table.addAll ds = .ok after) : table.Adds ds after := by
  induction ds generalizing table with
  | nil =>
    cases h
    exact ⟨rfl, List.prefix_rfl, fun _ => .inl, by simp, id, id⟩
  | cons d rest ih =>
    rw [addAll_cons, Outcome.bind_eq_ok_iff] at h
    obtain ⟨between, hadd, hrest⟩ := h
    exact (Adds.of_add hadd).trans (ih hrest)

/-! ## The invariant -/

/-- The table holds what describes the types that were met, and nothing else. -/
structure Sound (locals : LocalTypes) (used : RuntimeType → Prop) (table : SchemaTable) :
    Prop where
  names : (table.descriptors.map (·.name)).Nodup
  length_le : table.descriptors.length ≤ capacity
  needed : ∀ d ∈ table.descriptors, locals.Collects used d
  parents : ∀ d ∈ table.descriptors, ∀ p, d.parent? = some p → table.Held p
  described : ∀ digest ∈ table.described, ∃ t, used t ∧ t.digest = digest ∧
    ∀ d, locals.Describes t d → table.Held d

theorem sound_empty (locals : LocalTypes) (used : RuntimeType → Prop) :
    Sound locals used empty := by
  refine ⟨?_, ?_, ?_, ?_, ?_⟩ <;> simp [empty]

/-- What adding a type leads to. -/
structure Grows (table after : SchemaTable) : Prop where
  described : ∀ digest ∈ table.described, digest ∈ after.described
  descriptors : table.descriptors <+: after.descriptors

theorem Grows.refl (table : SchemaTable) : table.Grows table :=
  ⟨fun _ => id, List.prefix_rfl⟩

theorem Grows.trans {between : SchemaTable} (h : table.Grows between)
    (h' : between.Grows after) : table.Grows after :=
  ⟨fun digest hdigest => h'.described digest (h.described digest hdigest),
    h.descriptors.trans h'.descriptors⟩

/-- A type that was added is described, and the table stays sound. -/
theorem Sound.describe (h : table.Sound locals used) (ht : used t)
    (hdescribe : table.describe locals t = .ok after) :
    after.Sound locals used ∧ table.Grows after ∧ t.digest ∈ after.described := by
  unfold SchemaTable.describe at hdescribe
  by_cases hmem : t.digest ∈ table.described
  · rw [if_pos hmem] at hdescribe
    cases hdescribe
    exact ⟨h, .refl _, hmem⟩
  · rw [if_neg hmem] at hdescribe
    have hadds := Adds.of_addAll hdescribe
    have hdescribed : after.described = t.digest :: table.described := hadds.described
    refine ⟨⟨hadds.names h.names, hadds.length_le h.length_le, fun d hd => ?_,
      fun d hd p hp => ?_, ?_⟩, ⟨fun digest hdigest => ?_, hadds.grows⟩, ?_⟩
    · rcases hadds.mem d hd with hd | hd
      · exact h.needed d hd
      · exact ⟨t, ht, LocalTypes.mem_closure_iff.mp hd⟩
    · rcases hadds.mem d hd with hd | hd
      · exact (h.parents d hd p hp).mono hadds.grows
      · have hdescribes := LocalTypes.mem_closure_iff.mp hd
        exact hadds.held p (LocalTypes.mem_closure_iff.mpr (hdescribes.parent hp))
    · intro digest hdigest
      rw [hdescribed] at hdigest
      rcases List.mem_cons.mp hdigest with rfl | hdigest
      · exact ⟨t, ht, rfl, fun d hd => hadds.held d (LocalTypes.mem_closure_iff.mpr hd)⟩
      · obtain ⟨u, hu, hdigest, hheld⟩ := h.described digest hdigest
        exact ⟨u, hu, hdigest, fun d hd => (hheld d hd).mono hadds.grows⟩
    · rw [hdescribed]
      exact List.mem_cons_of_mem _ hdigest
    · rw [hdescribed]
      exact List.mem_cons_self

/-- Everything that describes a described type is held. -/
theorem Sound.held (h : table.Sound locals used) (hused : ToldApart used) (ht : used t)
    (hmem : t.digest ∈ table.described) (hd : locals.Describes t d) : table.Held d := by
  obtain ⟨u, hu, hdigest, hheld⟩ := h.described _ hmem
  obtain ⟨e, he, halike⟩ := hd.exists_alike (hused t u ht hu hdigest.symm)
  obtain ⟨c, hc, hname, hdigest⟩ := hheld e he
  exact ⟨c, hc, hname.trans halike.name.symm, hdigest.trans halike.digest.symm⟩

/-- A described type has a place. -/
theorem Sound.index? (h : table.Sound locals used) (hused : ToldApart used) (ht : used t)
    (hmem : t.digest ∈ table.described) :
    ∃ index, table.index? t.name = some index := by
  have hself : locals.Describes t t.descriptor := .lineage List.mem_cons_self
  obtain ⟨e, he, hname, -⟩ := h.held hused ht hmem hself
  have hfind : (table.descriptors.findIdx? (·.name == t.name)).isSome = true := by
    rw [List.findIdx?_isSome, List.any_eq_true]
    exact ⟨e, he, beq_iff_eq.mpr hname⟩
  exact Option.isSome_iff_exists.mp hfind

/-- No two descriptors of different digests under one name can be held for the types that are
described. -/
theorem Sound.digest_eq (h : table.Sound locals used) (hused : ToldApart used)
    {t u : RuntimeType} (ht : used t) (htmem : t.digest ∈ table.described) (hu : used u)
    (humem : u.digest ∈ table.described) {d e : Descriptor} (hd : locals.Describes t d)
    (he : locals.Describes u e) (hname : d.name = e.name) : d.digest = e.digest := by
  obtain ⟨a, ha, haname, hadigest⟩ := h.held hused ht htmem hd
  obtain ⟨b, hb, hbname, hbdigest⟩ := h.held hused hu humem he
  have hab : a = b :=
    List.inj_on_of_nodup_map h.names ha hb (haname.trans (hname.trans hbname.symm))
  rw [← hadigest, ← hbdigest, hab]

/-! ## When a type can be added -/

theorem length_le_of_encard {names : Set String} (hnames : names.encard ≤ capacity)
    {list : List String} (hlist : list.Nodup) (hmem : ∀ name ∈ list, name ∈ names) :
    list.length ≤ capacity := by
  have hsubset : (list.toFinset : Set String) ⊆ names :=
    fun name hname => hmem name (by simpa using hname)
  have hle := (Set.encard_le_encard hsubset).trans hnames
  rw [Set.encard_coe_eq_coe_finsetCard, List.toFinset_card_of_nodup hlist] at hle
  exact_mod_cast hle

theorem exists_add (hsame : locals.Unambiguous used)
    (hcount : (locals.collectedNames used).encard ≤ capacity)
    (hnames : (table.descriptors.map (·.name)).Nodup)
    (hneeded : ∀ e ∈ table.descriptors, locals.Collects used e) (hd : locals.Collects used d) :
    ∃ after, table.add d = .ok after := by
  cases hfind : table.descriptors.find? (·.name == d.name) with
  | some e =>
    have hname : e.name = d.name := by simpa using List.find?_some hfind
    have hdigest := hsame e d (hneeded e (List.mem_of_find?_eq_some hfind)) hd hname
    exact ⟨table, add_eq_ok_iff.mpr (.inl ⟨e, hfind, hdigest, rfl⟩)⟩
  | none =>
    have hfresh : ∀ e ∈ table.descriptors, e.name ≠ d.name := by simpa using hfind
    have hnodup : (d.name :: table.descriptors.map (·.name)).Nodup :=
      List.nodup_cons.mpr ⟨by simpa using hfresh, hnames⟩
    have hcollected : ∀ name ∈ d.name :: table.descriptors.map (·.name),
        name ∈ locals.collectedNames used := by
      simp only [List.mem_cons, List.mem_map]
      rintro name (rfl | ⟨e, he, rfl⟩)
      · exact ⟨d, hd, rfl⟩
      · exact ⟨e, hneeded e he, rfl⟩
    have hlength := length_le_of_encard hcount hnodup hcollected
    rw [List.length_cons, List.length_map] at hlength
    exact ⟨_, add_eq_ok_iff.mpr (.inr ⟨hfind, hlength, rfl⟩)⟩

theorem exists_addAll (hsame : locals.Unambiguous used)
    (hcount : (locals.collectedNames used).encard ≤ capacity)
    (hnames : (table.descriptors.map (·.name)).Nodup)
    (hneeded : ∀ e ∈ table.descriptors, locals.Collects used e)
    (hds : ∀ d ∈ ds, locals.Collects used d) : ∃ after, table.addAll ds = .ok after := by
  induction ds generalizing table with
  | nil => exact ⟨table, rfl⟩
  | cons d rest ih =>
    have hd := hds d List.mem_cons_self
    obtain ⟨between, hadd⟩ := exists_add hsame hcount hnames hneeded hd
    have hadds := Adds.of_add hadd
    obtain ⟨after, hrest⟩ := ih (hadds.names hnames)
      (fun e he => (hadds.mem e he).elim (hneeded e) fun he => List.mem_singleton.mp he ▸ hd)
      fun e he => hds e (List.mem_cons_of_mem _ he)
    exact ⟨after, addAll_cons.trans (Outcome.bind_eq_ok_iff.mpr ⟨between, hadd, hrest⟩)⟩

/-- Every type can be added, as long as names are not shared and places suffice. -/
theorem Sound.exists_describe (h : table.Sound locals used) (hsame : locals.Unambiguous used)
    (hcount : (locals.collectedNames used).encard ≤ capacity) (ht : used t) :
    ∃ after, table.describe locals t = .ok after := by
  unfold SchemaTable.describe
  by_cases hmem : t.digest ∈ table.described
  · exact ⟨table, by rw [if_pos hmem]⟩
  · rw [if_neg hmem]
    exact exists_addAll hsame hcount h.names h.needed
      fun d hd => ⟨t, ht, LocalTypes.mem_closure_iff.mp hd⟩

end SchemaTable

end ObjectEnvelope
