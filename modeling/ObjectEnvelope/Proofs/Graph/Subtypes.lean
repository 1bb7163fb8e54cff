import ObjectEnvelope.Proofs.Graph.Copies
import ObjectEnvelope.Proofs.Schema.Inheritance

/-!
# Subtypes in the places of supertypes

The names that a type may be declared by are collected from all levels of its chain, so that a type
has those of each supertype among its own (`SubtypeOf.isAssignableTo`). Since the checks of a graph
look at the types of objects through these names only, an object may be exchanged for one of a
subtype wherever it stands (`accepts_of_subtypeOf`).
-/

namespace ObjectEnvelope

namespace RuntimeType

variable {t a : RuntimeType} {name : String}

/-- A type may stand where its name, that of a supertype, or an interface of one of them is
declared. -/
theorem isAssignableTo_iff_names : t.isAssignableTo name = true ↔
    name = t.name ∨ (∃ e ∈ t.descriptor.ancestors, name = e.name) ∨
      ∃ e ∈ t.descriptor.lineage, name ∈ e.interfaces := by
  rw [isAssignableTo_iff]
  simp only [and_or_left, exists_or, Descriptor.lineage, List.mem_cons, exists_eq_or_imp,
    eq_comm (a := name), or_assoc]
  rfl

/-- A type may stand wherever its supertypes may. -/
theorem SubtypeOf.isAssignableTo (h : t.SubtypeOf a) (ha : a.isAssignableTo name = true) :
    t.isAssignableTo name = true := by
  obtain ⟨e, he, halike⟩ := h
  rw [isAssignableTo_iff] at ha ⊢
  obtain ⟨c, hc, hname⟩ := ha
  obtain ⟨b, hb, hcb⟩ := halike.symm.exists_mem_lineage hc
  refine ⟨b, Descriptor.lineage_subset (List.mem_cons_of_mem _ he) b hb, ?_⟩
  exact hname.imp hcb.name.symm.trans hcb.level.interfaces.mem_iff.mp

theorem SubtypeOf.accepts (h : t.SubtypeOf a) {declared : ValueType}
    (ha : a.accepts declared = true) : t.accepts declared = true := by
  cases declared with
  | any => rfl
  | reference name => exact h.isAssignableTo ha
  | primitive | list => cases ha

end RuntimeType

namespace ObjectGraph

/-- **Subtypes are accepted wherever their supertypes are.** A type may be declared by its name, by
those of its supertypes, and by the interfaces that any of them declares, and by no other name. So
it is accepted where a supertype is, and an object of the type passes every check of a slot that one
of the supertype passes, whether it stands in the slot itself or in lists of any depth. -/
theorem accepts_of_subtypeOf (t : RuntimeType) :
    (∀ name, t.isAssignableTo name = true ↔
      name = t.name ∨ (∃ e ∈ t.descriptor.ancestors, name = e.name) ∨
        ∃ e ∈ t.descriptor.lineage, name ∈ e.interfaces) ∧
    ∀ a, t.SubtypeOf a →
      (∀ declared, a.accepts declared = true → t.accepts declared = true) ∧
      ∀ (g : ObjectGraph) (h k : Handle) (o o' : Instance), g.get? h = some o → o.type = a →
        g.get? k = some o' → o'.type = t →
        ∀ v w, v.Copies (fun x y => x = y ∨ (x = h ∧ y = k)) w →
          ∀ owner owner' slot, g.checkSlot owner slot v = .ok () →
            g.checkSlot owner' slot w = .ok () := by
  refine ⟨fun name => RuntimeType.isAssignableTo_iff_names, fun a hsubtype =>
    ⟨fun declared => hsubtype.accepts, ?_⟩⟩
  rintro g h k o o' hget rfl hget' rfl v w hcopies owner owner' slot hcheck
  have hlink : ∀ x y, (x = y ∨ (x = h ∧ y = k)) → ∀ p, g.get? x = some p →
      ∃ p', g.get? y = some p' ∧
        ∀ declared, p.type.accepts declared = true → p'.type.accepts declared = true := by
    rintro x y (rfl | ⟨rfl, rfl⟩) p hp
    · exact ⟨p, hp, fun _ => id⟩
    · obtain rfl := Option.some_inj.mp (hget.symm.trans hp)
      exact ⟨o', hget', fun _ => hsubtype.accepts⟩
  obtain ⟨hfits, hnull⟩ := checkSlot_eq_ok_iff.mp hcheck
  exact checkSlot_eq_ok_iff.mpr
    ⟨hfits.copies_of_accepts hcopies hlink, fun hw => hnull (hcopies.eq_null_iff.mpr hw)⟩

/-- What has a name. -/
def animal : Descriptor :=
  ⟨Declaration.toLevel ⟨"Animal", .composite, [], ["Named"]⟩ [], [],
    Declaration.sealed_toLevel (by decide) (by decide) trivial⟩

/-- An animal that declares no interface itself. -/
def cat : Descriptor :=
  ⟨Declaration.toLevel ⟨"Cat", .composite, [], []⟩ [animal.level], [animal.level],
    Declaration.sealed_toLevel (by decide) (by decide) animal.isSealed⟩

/-- An animal as a runtime type. -/
def animalType : RuntimeType := .ofDescriptor ⟨.known, 0, 0⟩ animal.digest animal (by decide)

/-- A cat as a runtime type. -/
def catType : RuntimeType := .ofDescriptor ⟨.known, 0, 1⟩ cat.digest cat (by decide)

/-- An animal and a cat. -/
def pets : ObjectGraph := ⟨#[⟨animalType, []⟩, ⟨catType, []⟩]⟩

/-- A cat may stand in lists of lists of what has a name, since an animal may, and is named by the
interface of its supertype. -/
theorem accepts_of_subtypeOf_cat :
    catType.isAssignableTo "Named" = true ∧
      pets.checkSlot "House" (.mandatory "rooms" (.list (.list (.reference "Named"))))
        (.list [.list [.object ⟨0⟩], .list [.object ⟨1⟩, .object ⟨0⟩]]) = .ok () ∧
      pets.checkSlot "House" (.mandatory "rooms" (.list (.list (.reference "Named"))))
        (.list [.list [.object ⟨1⟩], .list [.object ⟨1⟩, .object ⟨0⟩]]) = .ok () := by
  obtain ⟨hnames, hsubtypes⟩ := accepts_of_subtypeOf catType
  have hancestor : animal ∈ catType.descriptor.ancestors := List.mem_singleton_self _
  obtain ⟨-, hchecks⟩ := hsubtypes animalType ⟨animal, hancestor, .refl _⟩
  have hanimal : pets.checkSlot "House" (.mandatory "rooms" (.list (.list (.reference "Named"))))
      (.list [.list [.object ⟨0⟩], .list [.object ⟨1⟩, .object ⟨0⟩]]) = .ok () := rfl
  have hcat : (Value.list [.list [.object ⟨0⟩], .list [.object ⟨1⟩, .object ⟨0⟩]]).Copies
      (fun x y => x = y ∨ (x = ⟨0⟩ ∧ y = ⟨1⟩))
      (.list [.list [.object ⟨1⟩], .list [.object ⟨1⟩, .object ⟨0⟩]]) := by
    refine .list (.cons (.list (.cons (.object ?_) .nil))
      (.cons (.list (.cons (.object ?_) (.cons (.object ?_) .nil))) .nil))
    · exact .inr ⟨rfl, rfl⟩
    · exact .inl rfl
    · exact .inl rfl
  have hnamed : catType.isAssignableTo "Named" = true := (hnames "Named").mpr
    (.inr (.inr ⟨animal, List.mem_cons_of_mem _ hancestor, List.mem_singleton_self _⟩))
  exact ⟨hnamed, hanimal, hchecks pets ⟨0⟩ ⟨1⟩ _ _ rfl rfl rfl rfl _ _ hcat _ _ _ hanimal⟩

end ObjectGraph

end ObjectEnvelope
