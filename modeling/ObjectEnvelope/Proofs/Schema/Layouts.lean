import ObjectEnvelope.Proofs.Schema.Alike

/-!
# Layouts

What a layout can be relied on for: its sizes are limited, and descriptors that are alike have the
same layout, up to the order of the names that a type may be declared by.
-/

namespace ObjectEnvelope

namespace Descriptor

variable {d : Descriptor}

/-! ## What can be laid out -/

/-- None of the own fields contradicts the inherited ones, if each is the inherited one of its
name. -/
theorem firstConflict?_eq_none_iff {own inherited : List Field} :
    firstConflict? own inherited = none ↔
      ∀ f ∈ own, ∀ g, inherited.find? (·.name == f.name) = some g → g = f := by
  rw [firstConflict?, List.findSome?_eq_none_iff]
  refine forall₂_congr fun f _ => ?_
  cases hfind : inherited.find? (·.name == f.name) with
  | none => simp
  | some g =>
    have hname : g.name = f.name := by simpa using List.find?_some hfind
    cases f
    cases g
    simp_all

theorem enumFault?_eq_none_iff : d.enumFault? = none ↔
    d.above = [] ∧ d.interfaces = [] ∧ d.fields.length ≤ maxSlots := by
  rw [enumFault?]
  split
  · next h =>
    simp only [reduceCtorEq, false_iff]
    exact fun h' => h.elim (absurd h'.1) (absurd h'.2.1)
  · next h =>
    rw [not_or, not_not, not_not] at h
    simp [h]

theorem extensionFault?_eq_none_iff : d.extensionFault? = none ↔
    (∀ p, d.parent? = some p → p.kind = d.kind) ∧
      (∀ f ∈ d.fields, ∀ g,
        (fieldsOfLevels d.above).find? (·.name == f.name) = some g → g = f) ∧
      d.allFields.length ≤ maxSlots := by
  have hparent : (∀ p, d.parent? = some p → p.kind = d.kind) ↔
      ∀ level ∈ d.above.head?, level.kind = d.kind := by
    obtain ⟨level, above, hsealed⟩ := d
    cases above <;> simp [parent?, kind]
  rw [hparent, ← firstConflict?_eq_none_iff, extensionFault?]
  simp only [Option.orElse_eq_orElse, Option.orElse_eq_or, Option.or_eq_none_iff,
    Option.bind_eq_none_iff, Option.map_eq_none_iff, Option.mem_def, ite_eq_left_iff,
    ite_eq_right_iff, reduceCtorEq, imp_false, not_not, Nat.not_lt]

/-- A type can be laid out if no name recurs in its chain and, unless it is an enum that stands for
itself, it is of the kind of its supertype and contradicts no inherited field. -/
theorem layoutFault?_eq_none_iff : d.layoutFault? = none ↔ d.chainNames.Nodup ∧
    (d.kind = .enumeration → d.above = [] ∧ d.interfaces = [] ∧ d.fields.length ≤ maxSlots) ∧
    (d.kind ≠ .enumeration → (∀ p, d.parent? = some p → p.kind = d.kind) ∧
      (∀ f ∈ d.fields, ∀ g,
        (fieldsOfLevels d.above).find? (·.name == f.name) = some g → g = f) ∧
      d.allFields.length ≤ maxSlots) := by
  rw [layoutFault?, ← firstRepeat?_eq_none_iff, ← enumFault?_eq_none_iff,
    ← extensionFault?_eq_none_iff]
  cases firstRepeat? d.chainNames with
  | some name => simp
  | none => by_cases hkind : d.kind = .enumeration <;> simp [hkind]

/-! ## Sizes -/

theorem length_allFields_le (h : d.layoutFault? = none) (hkind : d.kind ≠ .enumeration) :
    d.allFields.length ≤ maxSlots :=
  ((layoutFault?_eq_none_iff.mp h).2.2 hkind).2.2

theorem length_fields_le (h : d.layoutFault? = none) (hkind : d.kind = .enumeration) :
    d.fields.length ≤ maxSlots :=
  ((layoutFault?_eq_none_iff.mp h).2.1 hkind).2.2

end Descriptor

namespace RuntimeType

variable {t u : RuntimeType}

theorem slots_eq (t : RuntimeType) :
    t.slots = if t.kind = .enumeration then [] else t.descriptor.allFields := by
  rw [slots, t.layout_eq]
  rfl

theorem constants_eq (t : RuntimeType) :
    t.constants = if t.kind = .enumeration then t.descriptor.fields.map (·.name) else [] := by
  rw [constants, t.layout_eq]
  rfl

theorem length_slots_le (t : RuntimeType) : t.slots.length ≤ maxSlots := by
  rw [slots_eq]
  split
  · exact Nat.zero_le _
  · next hkind => exact Descriptor.length_allFields_le t.admissible hkind

theorem length_constants_le (t : RuntimeType) : t.constants.length ≤ maxSlots := by
  rw [constants_eq]
  split
  · next hkind =>
    rw [List.length_map]
    exact Descriptor.length_fields_le t.admissible hkind
  · exact Nat.zero_le _

end RuntimeType

/-! ## Layouts of descriptors that are alike -/

/-- Chains that agree give the same fields. -/
theorem Descriptor.fieldsOfLevels_eq {ls ms : List Level} (h : List.Forall₂ Level.Alike ls ms) :
    fieldsOfLevels ls = fieldsOfLevels ms := by
  induction h with
  | nil => rfl
  | cons hlevel _ ih => rw [fieldsOfLevels, fieldsOfLevels, ih, hlevel.fields]

theorem Descriptor.names_eq {ls ms : List Level} (h : List.Forall₂ Level.Alike ls ms) :
    ls.map (·.name) = ms.map (·.name) := by
  induction h with
  | nil => rfl
  | cons hlevel _ ih => rw [List.map_cons, List.map_cons, hlevel.name, ih]

theorem Descriptor.mem_interfaces_iff {ls ms : List Level} (h : List.Forall₂ Level.Alike ls ms)
    {name : String} : name ∈ ls.flatMap (·.interfaces) ↔ name ∈ ms.flatMap (·.interfaces) := by
  induction h with
  | nil => rfl
  | cons hlevel _ ih =>
    rw [List.flatMap_cons, List.flatMap_cons, List.mem_append, List.mem_append, ih,
      hlevel.interfaces.mem_iff]

namespace Descriptor.Alike

variable {a b : Descriptor}

theorem above (h : a.Alike b) : List.Forall₂ Level.Alike a.above b.above :=
  (List.forall₂_cons.mp h).2

theorem fields (h : a.Alike b) : a.fields = b.fields :=
  h.level.fields

theorem allFields (h : a.Alike b) : a.allFields = b.allFields :=
  fieldsOfLevels_eq h

theorem chainNames (h : a.Alike b) : a.chainNames = b.chainNames :=
  names_eq h

theorem mem_chainInterfaces_iff (h : a.Alike b) {name : String} :
    name ∈ a.chainInterfaces ↔ name ∈ b.chainInterfaces :=
  mem_interfaces_iff h

/-- The supertype has the same name and kind. -/
theorem head?_above (h : a.Alike b) :
    a.above.head?.map (fun parent => (parent.kind, parent.name)) =
      b.above.head?.map (fun parent => (parent.kind, parent.name)) := by
  have habove := h.above
  generalize a.above = ls, b.above = ms at habove
  cases habove with
  | nil => rfl
  | cons hlevel _ => simp [hlevel.kind, hlevel.name]

/-- What keeps one of them from being laid out keeps the other. -/
theorem layoutFault? (h : a.Alike b) : a.layoutFault? = b.layoutFault? := by
  have hinterfaces : a.interfaces = [] ↔ b.interfaces = [] := by
    have hlength : a.interfaces.length = b.interfaces.length := h.level.interfaces.length_eq
    rw [← List.length_eq_zero_iff, hlength, List.length_eq_zero_iff]
  have habove : a.above = [] ↔ b.above = [] := by
    rw [← List.length_eq_zero_iff, h.above.length_eq, List.length_eq_zero_iff]
  have henum : a.enumFault? = b.enumFault? := by
    simp only [enumFault?, ne_eq, hinterfaces, habove, h.name, h.fields]
  have hextension : a.extensionFault? = b.extensionFault? := by
    have hparent : ∀ d : Descriptor, (d.above.head?.bind fun parent =>
        if parent.kind = d.kind then none
        else some (LayoutFault.kindChange d.kind d.name parent.kind parent.name)) =
        (d.above.head?.map fun parent => (parent.kind, parent.name)).bind fun parent =>
          if parent.1 = d.kind then none
          else some (LayoutFault.kindChange d.kind d.name parent.1 parent.2) := by
      intro d
      cases d.above.head? <;> rfl
    rw [extensionFault?, extensionFault?, hparent, hparent, h.head?_above, h.kind, h.name, h.fields,
      h.allFields, fieldsOfLevels_eq h.above]
  rw [Descriptor.layoutFault?, Descriptor.layoutFault?, h.chainNames, h.name, h.kind, henum,
    hextension]

end Descriptor.Alike

/-! ## Names that types stand under -/

theorem Descriptor.map_level_ofLevels (levels : List Level) (h : Sealed levels) :
    (ofLevels levels h).map (·.level) = levels := by
  induction levels with
  | nil => rfl
  | cons level above ih => rw [ofLevels, List.map_cons, ih]

/-- A type may stand where its own name, that of a supertype or an interface of one of them is
declared. -/
theorem RuntimeType.isAssignableTo_iff {t : RuntimeType} {name : String} :
    t.isAssignableTo name = true ↔
      ∃ e ∈ t.descriptor.lineage, e.name = name ∨ name ∈ e.interfaces := by
  have hlevels : t.descriptor.level :: t.descriptor.above =
      t.descriptor.lineage.map (·.level) := by
    rw [Descriptor.lineage_eq_ofLevels, Descriptor.map_level_ofLevels]
  rw [isAssignableTo, t.layout_eq, Descriptor.layout, Descriptor.chainNames,
    Descriptor.chainInterfaces, hlevels]
  simp only [List.contains_iff_mem, List.mem_eraseDups, List.mem_append, List.mem_map,
    List.mem_flatMap, exists_exists_and_eq_and, ← exists_or, ← and_or_left]
  rfl

/-- The second type is the first, laid out elsewhere. -/
structure RuntimeType.Twin (t u : RuntimeType) : Prop where
  alike : t.descriptor.Alike u.descriptor
  digest : t.digest = u.digest

namespace RuntimeType.Twin

variable {t u : RuntimeType}

theorem kind (h : t.Twin u) : t.kind = u.kind :=
  h.alike.kind

theorem slots (h : t.Twin u) : t.slots = u.slots := by
  rw [slots_eq, slots_eq, h.kind, h.alike.allFields]

theorem constants (h : t.Twin u) : t.constants = u.constants := by
  rw [constants_eq, constants_eq, h.kind, h.alike.fields]

theorem accepts (h : t.Twin u) (declared : ValueType) :
    t.accepts declared = u.accepts declared := by
  have hname : ∀ name, t.isAssignableTo name = u.isAssignableTo name := by
    intro name
    rw [Bool.eq_iff_iff, isAssignableTo, isAssignableTo, t.layout_eq, u.layout_eq,
      Descriptor.layout, Descriptor.layout]
    simp only [List.contains_iff_mem, List.mem_eraseDups, List.mem_append, h.alike.chainNames,
      h.alike.mem_chainInterfaces_iff]
  cases declared with
  | reference name => exact hname name
  | _ => rfl

end RuntimeType.Twin

end ObjectEnvelope
