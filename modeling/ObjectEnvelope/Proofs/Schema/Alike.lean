import Mathlib.Data.List.Perm.Subperm
import ObjectEnvelope.Proofs.Lists
import ObjectEnvelope.Types.RuntimeType

/-!
# Descriptors that are alike

Two descriptors are alike when their chains agree level by level, up to the order in which
interfaces are listed. Nothing else tells them apart: they have one digest, one layout and the same
places to stand in.
-/

namespace ObjectEnvelope

/-- The same declaration, up to the order of the interfaces. -/
structure Level.Alike (a b : Level) : Prop where
  name : a.name = b.name
  kind : a.kind = b.kind
  fields : a.fields = b.fields
  interfaces : a.interfaces.Perm b.interfaces

namespace Level.Alike

variable {a b c : Level}

theorem refl (a : Level) : a.Alike a :=
  ⟨rfl, rfl, rfl, .refl _⟩

theorem symm (h : a.Alike b) : b.Alike a :=
  ⟨h.name.symm, h.kind.symm, h.fields.symm, h.interfaces.symm⟩

theorem trans (h : a.Alike b) (h' : b.Alike c) : a.Alike c :=
  ⟨h.name.trans h'.name, h.kind.trans h'.kind, h.fields.trans h'.fields,
    h.interfaces.trans h'.interfaces⟩

/-- The order in which interfaces are listed does not show once they are sorted. -/
theorem sortedInterfaces (h : a.Alike b) : a.sortedInterfaces = b.sortedInterfaces := by
  have hsorted : ∀ names : List String, (names.mergeSort (· ≤ ·)).Pairwise (· ≤ ·) := by
    intro names
    refine (List.pairwise_mergeSort ?_ ?_ names).imp fun hle => of_decide_eq_true hle
    · simp only [decide_eq_true_eq]
      exact fun _ _ _ => String.le_trans
    · simp only [Bool.or_eq_true, decide_eq_true_eq]
      exact String.le_total
  refine List.Perm.eq_of_pairwise (fun _ _ _ _ => String.le_antisymm) (hsorted a.interfaces)
    (hsorted b.interfaces) ?_
  exact (List.mergeSort_perm _ _).trans (h.interfaces.trans (List.mergeSort_perm _ _).symm)

theorem signature (h : a.Alike b) (parent : Option Digest) :
    a.signature parent = b.signature parent := by
  simp only [Declaration.signature, h.name, h.kind, h.fields, h.sortedInterfaces]

end Level.Alike

/-- The chains agree level by level. -/
def Descriptor.Alike (a b : Descriptor) : Prop :=
  List.Forall₂ Level.Alike (a.level :: a.above) (b.level :: b.above)

/-- Chains that agree have the same digests. -/
theorem Sealed.digest_eq {ls ms : List Level} (h : List.Forall₂ Level.Alike ls ms)
    (hls : Sealed ls) (hms : Sealed ms) : ls.map (·.digest) = ms.map (·.digest) := by
  induction h with
  | nil => rfl
  | cons hlevel habove ih =>
    have habove' := ih hls.2.2.2 hms.2.2.2
    have hhead := congrArg List.head? habove'
    rw [List.head?_map, List.head?_map] at hhead
    rw [List.map_cons, List.map_cons, habove', hls.1, hms.1, hhead, hlevel.signature]

namespace Descriptor

variable {a b c : Descriptor}

theorem Alike.refl (a : Descriptor) : a.Alike a :=
  List.forall₂_same.mpr fun level _ => .refl level

theorem Alike.symm (h : a.Alike b) : b.Alike a :=
  List.Forall₂.flip (h.imp fun _ _ => Level.Alike.symm)

theorem Alike.trans (h : a.Alike b) (h' : b.Alike c) : a.Alike c := by
  unfold Alike at *
  generalize a.level :: a.above = ls at h
  generalize b.level :: b.above = ms at h h'
  generalize c.level :: c.above = ns at h'
  induction h generalizing ns with
  | nil => exact h'
  | cons hl _ ih =>
    obtain _ | ⟨hm, hms⟩ := h'
    exact .cons (hl.trans hm) (ih _ hms)

theorem Alike.level (h : a.Alike b) : a.level.Alike b.level :=
  (List.forall₂_cons.mp h).1

theorem Alike.name (h : a.Alike b) : a.name = b.name :=
  h.level.name

theorem Alike.kind (h : a.Alike b) : a.kind = b.kind :=
  h.level.kind

theorem Alike.digest (h : a.Alike b) : a.digest = b.digest := by
  have hdigests := Sealed.digest_eq h a.isSealed b.isSealed
  rw [List.map_cons, List.map_cons, List.cons_eq_cons] at hdigests
  exact hdigests.1

/-! ## Structure -/

/-- Two descriptors are compared by the level of the types themselves and the digest of the next. -/
theorem same_iff :
    a.same b = true ↔ a.level.Alike b.level ∧
      a.above.head?.map (·.digest) = b.above.head?.map (·.digest) := by
  simp only [same, Bool.and_eq_true, beq_iff_eq, List.all_eq_true, List.contains_iff_mem]
  constructor
  · rintro ⟨⟨⟨⟨⟨hname, hkind⟩, hfields⟩, hparent⟩, hlength⟩, hinterfaces⟩
    have hsubperm := List.subperm_of_subset a.isSealed.2.2.1 hinterfaces
    exact ⟨⟨hname, hkind, hfields, hsubperm.perm_of_length_le (Nat.le_of_eq hlength.symm)⟩,
      hparent⟩
  · rintro ⟨⟨hname, hkind, hfields, hinterfaces⟩, hparent⟩
    exact ⟨⟨⟨⟨⟨hname, hkind⟩, hfields⟩, hparent⟩, hinterfaces.length_eq⟩,
      fun _ hmem => hinterfaces.mem_iff.mp hmem⟩

theorem same_symm (h : a.same b = true) : b.same a = true := by
  obtain ⟨hlevel, hparent⟩ := same_iff.mp h
  exact same_iff.mpr ⟨hlevel.symm, hparent.symm⟩

theorem same_trans (h : a.same b = true) (h' : b.same c = true) : a.same c = true := by
  obtain ⟨hlevel, hparent⟩ := same_iff.mp h
  obtain ⟨hlevel', hparent'⟩ := same_iff.mp h'
  exact same_iff.mpr ⟨hlevel.trans hlevel', hparent.trans hparent'⟩

/-- Descriptors of one structure have one digest. -/
theorem digest_eq_of_same (h : a.same b = true) : a.digest = b.digest := by
  obtain ⟨hlevel, hparent⟩ := same_iff.mp h
  rw [digest, digest, a.isSealed.1, b.isSealed.1, hparent, hlevel.signature]

/-- Chains that agree have one structure. -/
theorem Alike.same (h : a.Alike b) : a.same b = true := by
  have hdigests := Sealed.digest_eq (List.forall₂_cons.mp h).2 a.isSealed.2.2.2 b.isSealed.2.2.2
  have hparent := congrArg List.head? hdigests
  rw [List.head?_map, List.head?_map] at hparent
  exact same_iff.mpr ⟨h.level, hparent⟩

/-- A descriptor has the structure of itself. -/
@[simp] theorem same_self (d : Descriptor) : d.same d = true :=
  (Alike.refl d).same

/-! ## Lineages -/

theorem lineage_eq_ofLevels (d : Descriptor) :
    d.lineage = ofLevels (d.level :: d.above) d.isSealed := rfl

theorem mem_lineage_self (d : Descriptor) : d ∈ d.lineage :=
  List.mem_cons_self

/-- The supertypes of a supertype are supertypes. -/
theorem lineage_subset_ofLevels {levels : List Level} {h : Sealed levels} {d : Descriptor}
    (hd : d ∈ ofLevels levels h) : ∀ e ∈ d.lineage, e ∈ ofLevels levels h := by
  induction levels with
  | nil => cases hd
  | cons level above ih =>
    rcases List.mem_cons.mp hd with rfl | hd
    · exact fun e he => he
    · exact fun e he => List.mem_cons_of_mem _ (ih hd e he)

theorem lineage_subset (ha : a ∈ b.lineage) : ∀ c ∈ a.lineage, c ∈ b.lineage := by
  rw [lineage_eq_ofLevels b] at ha ⊢
  exact lineage_subset_ofLevels ha

theorem parent?_eq_some_iff {p : Descriptor} :
    a.parent? = some p ↔ a.above = p.level :: p.above := by
  obtain ⟨level, above, hsealed⟩ := a
  cases above with
  | nil => simp [parent?]
  | cons next above =>
    cases p
    simp [parent?]

theorem parent?_eq_none_iff : a.parent? = none ↔ a.above = [] := by
  obtain ⟨level, above, hsealed⟩ := a
  cases above <;> simp [parent?]

theorem mem_lineage_of_parent? {p : Descriptor} (h : a.parent? = some p) : p ∈ a.lineage := by
  obtain ⟨level, above, hsealed⟩ := a
  obtain rfl := parent?_eq_some_iff.mp h
  exact List.mem_cons_of_mem _ List.mem_cons_self

theorem ancestors_of_parent? {p : Descriptor} (h : a.parent? = some p) :
    a.ancestors = p.lineage := by
  obtain ⟨level, above, hsealed⟩ := a
  obtain rfl := parent?_eq_some_iff.mp h
  rfl

theorem ancestors_eq_nil (h : a.parent? = none) : a.ancestors = [] := by
  obtain ⟨level, above, hsealed⟩ := a
  obtain rfl := parent?_eq_none_iff.mp h
  rfl

/-- Induction down a chain of supertypes. -/
@[elab_as_elim]
theorem induct {motive : Descriptor → Prop}
    (top : ∀ d : Descriptor, d.parent? = none → motive d)
    (under : ∀ d p : Descriptor, d.parent? = some p → motive p → motive d) (d : Descriptor) :
    motive d := by
  obtain ⟨level, above, hsealed⟩ := d
  induction above generalizing level with
  | nil => exact top _ rfl
  | cons next above ih => exact under _ _ rfl (ih next hsealed.2.2.2)

/-- A lineage is the descriptor itself and the lineage of its supertype. -/
theorem forall_mem_lineage_iff {holds : Descriptor → Prop} :
    (∀ e ∈ a.lineage, holds e) ↔
      holds a ∧ ∀ p, a.parent? = some p → ∀ e ∈ p.lineage, holds e := by
  rw [lineage, List.forall_mem_cons]
  refine and_congr_right fun _ => ?_
  cases hup : a.parent? with
  | none => simp [ancestors_eq_nil hup]
  | some p => simp [ancestors_of_parent? hup]

/-- Each descriptor of a chain brings the rest of the chain. -/
theorem forall₂_ofLevels {ls ms : List Level} (h : List.Forall₂ Level.Alike ls ms)
    (hls : Sealed ls) (hms : Sealed ms) :
    List.Forall₂ Alike (ofLevels ls hls) (ofLevels ms hms) := by
  induction h with
  | nil => exact .nil
  | cons hlevel habove ih => exact .cons (.cons hlevel habove) (ih hls.2.2.2 hms.2.2.2)

theorem Alike.lineage (h : a.Alike b) : List.Forall₂ Alike a.lineage b.lineage :=
  forall₂_ofLevels h a.isSealed b.isSealed

/-- Whatever stands in one lineage has its like in the other. -/
theorem Alike.exists_mem_lineage (h : a.Alike b) {d : Descriptor} (hd : d ∈ a.lineage) :
    ∃ e ∈ b.lineage, d.Alike e :=
  forall₂_exists_right h.lineage hd

end Descriptor

end ObjectEnvelope
