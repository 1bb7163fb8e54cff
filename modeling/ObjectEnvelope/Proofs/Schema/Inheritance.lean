import ObjectEnvelope.Proofs.Schema.Collisions

/-!
# Inherited slots

A layout is checked against the supertype next above only: what the fields of a type contradict, and
what kind it is. When the supertypes have been laid out as well (`Descriptor.Admissible`), this goes
up the chain. Each level then adds to the fields of the one above those that no level above declares
(`Descriptor.introduced`), behind them and without moving any (`Admissible.allFields_eq`), so that a
type has the slots of each supertype at the places where that has them (`Admissible.inherited`).
-/

namespace ObjectEnvelope

namespace Descriptor

variable {d e p : Descriptor} {f g : Field} {own all : List Field}

/-- The fields that the type declares and none of its supertypes does. -/
def introduced (d : Descriptor) : List Field :=
  d.fields.filter fun f => ∀ e ∈ d.ancestors, f.name ∉ e.fields.map (·.name)

/-! ## Overlays -/

/-- A field that stands there already changes nothing. -/
theorem overlay_eq_self (h : all.find? (·.name == f.name) = some f) : overlay f all = all := by
  induction all with
  | nil => cases h
  | cons g rest ih =>
    rw [List.find?_cons] at h
    rw [overlay]
    by_cases hname : g.name = f.name
    · rw [hname, beq_self_eq_true, Option.some_inj] at h
      rw [if_pos hname, h]
    · rw [beq_false_of_ne hname] at h
      rw [if_neg hname, ih h]

/-- A field of a new name is added at the end. -/
theorem overlay_eq_append (h : f.name ∉ all.map (·.name)) : overlay f all = all ++ [f] := by
  induction all with
  | nil => rfl
  | cons g rest ih =>
    rw [List.map_cons, List.mem_cons, not_or] at h
    rw [overlay, if_neg (Ne.symm h.1), ih h.2, List.cons_append]

theorem find?_name_eq_none_iff {name : String} :
    all.find? (·.name == name) = none ↔ name ∉ all.map (·.name) := by
  simp [List.find?_eq_none]

/-- Own fields that agree with the inherited ones add those of new names. -/
theorem foldl_overlay (hown : (own.map (·.name)).Nodup)
    (hagree : ∀ f ∈ own, ∀ g, all.find? (·.name == f.name) = some g → g = f) :
    own.foldl (fun all f => overlay f all) all =
      all ++ own.filter fun f => f.name ∉ all.map (·.name) := by
  induction own generalizing all with
  | nil => simp
  | cons f rest ih =>
    rw [List.map_cons, List.nodup_cons] at hown
    rw [List.forall_mem_cons] at hagree
    rw [List.foldl_cons]
    cases hfind : all.find? (·.name == f.name) with
    | some g =>
      obtain rfl := hagree.1 g hfind
      have hmem : g.name ∈ all.map (·.name) :=
        List.mem_map_of_mem (List.mem_of_find?_eq_some hfind)
      rw [overlay_eq_self hfind, ih hown.2 hagree.2, List.filter_cons_of_neg (by simpa using hmem)]
    | none =>
      have hnew := find?_name_eq_none_iff.mp hfind
      -- the names of the rest are others, so the new field is in nobody's way
      have hother : ∀ g ∈ rest, g.name ≠ f.name := by
        intro g hg heq
        exact hown.1 (heq ▸ List.mem_map_of_mem (f := Field.name) hg)
      have hrest : ∀ g ∈ rest, ∀ c,
          (all ++ [f]).find? (·.name == g.name) = some c → c = g := by
        intro g hg c hc
        rw [List.find?_append, List.find?_singleton,
          if_neg (by simpa using (hother g hg).symm), Option.or_none] at hc
        exact hagree.2 g hg c hc
      rw [overlay_eq_append hnew, ih hown.2 hrest, List.filter_cons_of_pos (by simpa using hnew),
        List.append_assoc, List.singleton_append]
      refine congrArg (all ++ f :: ·) (List.filter_congr fun g hg => ?_)
      simp [hother g hg]

theorem mem_names_overlay {name : String} :
    name ∈ (overlay f all).map (·.name) ↔ name = f.name ∨ name ∈ all.map (·.name) := by
  induction all with
  | nil => simp [overlay]
  | cons g rest ih =>
    rw [overlay]
    by_cases hname : g.name = f.name
    · simp [hname]
    · rw [if_neg hname, List.map_cons, List.mem_cons, ih, List.map_cons, List.mem_cons]
      exact or_left_comm

theorem mem_names_foldl_overlay {name : String} :
    name ∈ (own.foldl (fun all f => overlay f all) all).map (·.name) ↔
      name ∈ own.map (·.name) ∨ name ∈ all.map (·.name) := by
  induction own generalizing all with
  | nil => simp
  | cons f rest ih =>
    rw [List.foldl_cons, ih, mem_names_overlay, List.map_cons, List.mem_cons]
    exact or_left_comm.trans or_assoc.symm

/-- The fields of a chain have the names that its types declare. -/
theorem mem_names_fieldsOfLevels {levels : List Level} (h : Sealed levels) {name : String} :
    name ∈ (fieldsOfLevels levels).map (·.name) ↔
      ∃ e ∈ ofLevels levels h, name ∈ e.fields.map (·.name) := by
  induction levels with
  | nil => simp [fieldsOfLevels, ofLevels]
  | cons level above ih =>
    rw [fieldsOfLevels, mem_names_foldl_overlay, ih h.2.2.2, ofLevels]
    simp only [List.mem_cons, exists_eq_or_imp]
    rfl

/-! ## Layouts up the chain -/

theorem chainNames_eq (d : Descriptor) : d.chainNames = d.lineage.map (·.name) := by
  rw [chainNames, lineage_eq_ofLevels]
  conv_lhs => rw [← map_level_ofLevels (d.level :: d.above) d.isSealed, List.map_map]
  rfl

/-- What can be laid out adds to the inherited fields those that no supertype declares. -/
theorem allFields_of_layoutFault? (h : d.layoutFault? = none) (hkind : d.kind ≠ .enumeration) :
    d.allFields = fieldsOfLevels d.above ++ d.introduced := by
  obtain ⟨-, hagree, -⟩ := (layoutFault?_eq_none_iff.mp h).2.2 hkind
  rw [allFields, fieldsOfLevels]
  refine (foldl_overlay d.isSealed.2.1 hagree).trans ?_
  refine congrArg (_ ++ ·) (List.filter_congr fun f _ => ?_)
  simp only [decide_eq_decide, mem_names_fieldsOfLevels d.isSealed.2.2.2, not_exists, not_and]
  rfl

theorem fieldsOfLevels_above (hp : d.parent? = some p) : fieldsOfLevels d.above = p.allFields := by
  rw [parent?_eq_some_iff.mp hp]
  rfl

theorem lineage_of_parent? (hp : d.parent? = some p) : d.lineage = d :: p.lineage := by
  rw [lineage, ancestors_of_parent? hp]

/-- What can be laid out extends types of its kind only. -/
theorem kind_of_parent? (h : d.layoutFault? = none) (hp : d.parent? = some p) :
    d.kind ≠ .enumeration ∧ p.kind = d.kind := by
  obtain ⟨-, henum, hextension⟩ := layoutFault?_eq_none_iff.mp h
  have hkind : d.kind ≠ .enumeration := by
    intro hkind
    obtain ⟨habove, -⟩ := henum hkind
    rw [parent?_eq_some_iff.mp hp] at habove
    cases habove
  exact ⟨hkind, (hextension hkind).1 p hp⟩

theorem Admissible.parent (h : d.Admissible) (hp : d.parent? = some p) : p.Admissible :=
  h.of_mem_lineage (mem_lineage_of_parent? hp)

theorem Admissible.self (h : d.Admissible) : d.layoutFault? = none :=
  h d d.mem_lineage_self

/-- All types of the chain are of one kind. -/
theorem Admissible.kind_eq (h : d.Admissible) : ∀ e ∈ d.lineage, e.kind = d.kind := by
  induction d using Descriptor.induct with
  | top d hp => simp [lineage, ancestors_eq_nil hp]
  | under d p hp ih =>
    rw [lineage_of_parent? hp, List.forall_mem_cons]
    refine ⟨rfl, fun e he => ?_⟩
    rw [ih (h.parent hp) e he, (kind_of_parent? h.self hp).2]

/-- The fields are those that each level introduces, the topmost first. -/
theorem Admissible.allFields_eq (h : d.Admissible) (hkind : d.kind ≠ .enumeration) :
    d.allFields = d.lineage.reverse.flatMap introduced := by
  induction d using Descriptor.induct with
  | top d hp =>
    rw [allFields_of_layoutFault? h.self hkind, parent?_eq_none_iff.mp hp, lineage,
      ancestors_eq_nil hp]
    simp [fieldsOfLevels]
  | under d p hp ih =>
    have hparent := (kind_of_parent? h.self hp).2
    rw [allFields_of_layoutFault? h.self hkind, fieldsOfLevels_above hp,
      ih (h.parent hp) (hparent ▸ hkind), lineage_of_parent? hp, List.reverse_cons,
      List.flatMap_append, List.flatMap_singleton]

theorem introduced_names (d : Descriptor) : (d.introduced.map (·.name)).Nodup :=
  List.Nodup.sublist (List.Sublist.map _ List.filter_sublist) d.isSealed.2.1

/-- No two fields have one name. -/
theorem Admissible.nodup_names (h : d.Admissible) (hkind : d.kind ≠ .enumeration) :
    (d.allFields.map (·.name)).Nodup := by
  induction d using Descriptor.induct with
  | top d hp =>
    rw [allFields_of_layoutFault? h.self hkind, parent?_eq_none_iff.mp hp]
    exact d.introduced_names
  | under d p hp ih =>
    have hparent := (kind_of_parent? h.self hp).2
    have hlevels := parent?_eq_some_iff.mp hp
    rw [allFields_of_layoutFault? h.self hkind, List.map_append, List.nodup_append,
      fieldsOfLevels_above hp]
    refine ⟨ih (h.parent hp) (hparent ▸ hkind), d.introduced_names, ?_⟩
    rintro _ hinherited name hown rfl
    obtain ⟨f, hf, rfl⟩ := List.mem_map.mp hown
    rw [← fieldsOfLevels_above hp, mem_names_fieldsOfLevels d.isSealed.2.2.2] at hinherited
    obtain ⟨e, he, hname⟩ := hinherited
    exact of_decide_eq_true (List.mem_filter.mp hf).2 e he hname

/-- The fields of a supertype come first, as that has them. -/
theorem Admissible.inherited (h : d.Admissible) :
    ∀ e ∈ d.ancestors, e.allFields <+: d.allFields := by
  induction d using Descriptor.induct with
  | top d hp => simp [ancestors_eq_nil hp]
  | under d p hp ih =>
    have hkind := (kind_of_parent? h.self hp).1
    have hinherited : p.allFields <+: d.allFields := by
      rw [allFields_of_layoutFault? h.self hkind, fieldsOfLevels_above hp]
      exact List.prefix_append _ _
    rw [ancestors_of_parent? hp, lineage, List.forall_mem_cons]
    exact ⟨hinherited, fun e he => (ih (h.parent hp) e he).trans hinherited⟩

end Descriptor

namespace RuntimeType

variable {t a : RuntimeType} {f : Field}

/-- The second type is laid out from a supertype of the first. -/
def SubtypeOf (t a : RuntimeType) : Prop :=
  ∃ e ∈ t.descriptor.ancestors, e.Alike a.descriptor

/-- The slots of the type are those of its supertypes, in their places, and behind them its own. -/
structure InheritsSlots (t : RuntimeType) : Prop where
  names : (t.slots.map (·.name)).Nodup
  introduced : t.slots = t.descriptor.lineage.reverse.flatMap Descriptor.introduced
  inherited : ∀ e ∈ t.descriptor.ancestors, e.allFields <+: t.slots
  slotIndex : ∀ a, t.SubtypeOf a → ∀ f ∈ a.slots, t.slotIndex? f.name = a.slotIndex? f.name

/-- The type stands for itself and has no slots, but constants, which are numbered as they are
declared. -/
structure NumbersConstants (t : RuntimeType) : Prop where
  slots : t.slots = []
  top : t.descriptor.parent? = none
  interfaces : t.descriptor.interfaces = []
  declared : ∀ i, t.constant? i = (t.descriptor.fields[i]?).map (·.name)
  inverse : ∀ i name, t.constant? i = some name ↔ t.ordinalOf? name = some i

/-- Slots that come first on another type have the places there that they have here. -/
theorem slotIndex?_eq_of_inherited (h : a.slots <+: t.slots) (hf : f ∈ a.slots) :
    t.slotIndex? f.name = a.slotIndex? f.name := by
  obtain ⟨rest, hrest⟩ := h
  have hfound : (a.slots.findIdx? (·.name == f.name)).isSome := by
    rw [List.findIdx?_isSome, List.any_eq_true]
    exact ⟨f, hf, beq_self_eq_true f.name⟩
  obtain ⟨index, hindex⟩ := Option.isSome_iff_exists.mp hfound
  rw [slotIndex?, slotIndex?, ← hrest, List.findIdx?_append, hindex, Option.some_or]

theorem inheritsSlots (h : t.descriptor.Admissible) (hkind : t.kind ≠ .enumeration) :
    t.InheritsSlots := by
  have hslots : t.slots = t.descriptor.allFields := by rw [slots_eq, if_neg hkind]
  refine ⟨?_, ?_, ?_, ?_⟩
  · rw [hslots]
    exact h.nodup_names hkind
  · rw [hslots]
    exact h.allFields_eq hkind
  · rw [hslots]
    exact h.inherited
  · rintro a ⟨e, he, halike⟩ f hf
    have hinherited : a.slots <+: t.slots := by
      rw [slots_eq] at hf ⊢
      split at hf
      · cases hf
      · next hkind' =>
        rw [if_neg hkind', ← halike.allFields, hslots]
        exact h.inherited e he
    exact slotIndex?_eq_of_inherited hinherited hf

theorem numbersConstants (hkind : t.kind = .enumeration) : t.NumbersConstants := by
  obtain ⟨-, henum, -⟩ := Descriptor.layoutFault?_eq_none_iff.mp t.admissible
  obtain ⟨habove, hinterfaces, -⟩ := henum hkind
  have hconstants : t.constants = t.descriptor.fields.map (·.name) := by
    rw [constants_eq, if_pos hkind]
  have hnodup : t.constants.Nodup := hconstants ▸ t.descriptor.isSealed.2.1
  refine ⟨by rw [slots_eq, if_pos hkind], Descriptor.parent?_eq_none_iff.mpr habove, hinterfaces,
    fun i => by rw [constant?, hconstants, List.getElem?_map], fun i name => ?_⟩
  rw [constant?, ordinalOf?, List.getElem?_eq_some_iff, List.findIdx?_eq_some_iff_getElem]
  refine exists_congr fun hlt => ?_
  rw [beq_iff_eq]
  refine ⟨fun heq => ⟨heq, fun j hj => ?_⟩, And.left⟩
  rw [beq_iff_eq, ← heq, hnodup.getElem_inj_iff]
  exact Nat.ne_of_lt hj

end RuntimeType

end ObjectEnvelope
