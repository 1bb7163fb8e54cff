import Mathlib.Data.Set.Basic
import ObjectEnvelope.Proofs.Schema.Layouts

/-!
# Descriptors without collisions

A digest stands for a structure only as long as no two structures share it. `CollisionFree` says so
of the descriptors in a set; the set is a parameter, since it cannot be the set of all. A descriptor
is known when it is like one whose whole lineage is in the set, and known descriptors are alike as
soon as their digests agree (`Known.alike`).
-/

namespace ObjectEnvelope

/-- No two of the descriptors have the same digest and differ. -/
def CollisionFree (ds : Set Descriptor) : Prop :=
  ∀ d ∈ ds, ∀ e ∈ ds, d.digest = e.digest → d.same e = true

theorem CollisionFree.mono {ds es : Set Descriptor} (h : CollisionFree es) (hsubset : ds ⊆ es) :
    CollisionFree ds :=
  fun d hd e he => h d (hsubset hd) e (hsubset he)

theorem collisionFree_singleton (d : Descriptor) : CollisionFree {d} := by
  rintro _ rfl _ rfl -
  exact (Descriptor.Alike.refl _).same

namespace Descriptor

variable {ds : Set Descriptor} {d e : Descriptor}

/-- The descriptor and its supertypes are in the set. -/
def Covered (ds : Set Descriptor) (d : Descriptor) : Prop :=
  ∀ e ∈ d.lineage, e ∈ ds

/-- The descriptor is like one that is covered. -/
def Known (ds : Set Descriptor) (d : Descriptor) : Prop :=
  ∃ e, e.Covered ds ∧ d.Alike e

theorem Covered.of_mem_lineage (h : e.Covered ds) (hd : d ∈ e.lineage) : d.Covered ds :=
  fun c hc => h c (lineage_subset hd c hc)

theorem Covered.known (h : d.Covered ds) : d.Known ds :=
  ⟨d, h, .refl d⟩

theorem Known.of_alike (h : e.Known ds) (halike : d.Alike e) : d.Known ds := by
  obtain ⟨c, hc, hec⟩ := h
  exact ⟨c, hc, halike.trans hec⟩

theorem Known.of_mem_lineage (h : e.Known ds) (hd : d ∈ e.lineage) : d.Known ds := by
  obtain ⟨c, hc, hec⟩ := h
  obtain ⟨b, hb, hdb⟩ := hec.exists_mem_lineage hd
  exact ⟨b, hc.of_mem_lineage hb, hdb⟩

/-! ## Digests tell known descriptors apart -/

/-- The digest that a level keeps of the next is that of the supertype. -/
theorem exists_parent?_of_head? {p : Descriptor}
    (h : d.above.head?.map (·.digest) = e.above.head?.map (·.digest)) (hp : d.parent? = some p) :
    ∃ q, e.parent? = some q ∧ p.digest = q.digest := by
  rw [parent?_eq_some_iff.mp hp] at h
  cases hq : e.parent? with
  | none =>
    rw [parent?_eq_none_iff.mp hq] at h
    cases h
  | some q =>
    rw [parent?_eq_some_iff.mp hq] at h
    exact ⟨q, rfl, Option.some_inj.mp h⟩

/-- Chains of descriptors in the set agree as soon as their digests do: the comparison covers one
level and the digest of the next. -/
theorem alike_of_head? (hds : CollisionFree ds) {ls ms : List Level} (hls : Sealed ls)
    (hms : Sealed ms) (hleft : ∀ d ∈ ofLevels ls hls, d ∈ ds)
    (hright : ∀ d ∈ ofLevels ms hms, d ∈ ds)
    (hdigest : ls.head?.map (·.digest) = ms.head?.map (·.digest)) :
    List.Forall₂ Level.Alike ls ms := by
  induction ls generalizing ms with
  | nil =>
    cases ms with
    | nil => exact .nil
    | cons m above => cases hdigest
  | cons l above ih =>
    cases ms with
    | nil => cases hdigest
    | cons m above' =>
      rw [ofLevels, List.forall_mem_cons] at hleft hright
      have hsame := hds _ hleft.1 _ hright.1 (Option.some_inj.mp hdigest)
      obtain ⟨hlevel, hparent⟩ := same_iff.mp hsame
      exact .cons hlevel (ih hls.2.2.2 hms.2.2.2 hleft.2 hright.2 hparent)

theorem Covered.alike (hds : CollisionFree ds) (hd : d.Covered ds) (he : e.Covered ds)
    (hdigest : d.digest = e.digest) : d.Alike e :=
  alike_of_head? hds d.isSealed e.isSealed hd he (congrArg some hdigest)

/-- Known descriptors of one digest are alike. -/
theorem Known.alike (hds : CollisionFree ds) (hd : d.Known ds) (he : e.Known ds)
    (hdigest : d.digest = e.digest) : d.Alike e := by
  obtain ⟨d', hd', hdd'⟩ := hd
  obtain ⟨e', he', hee'⟩ := he
  have hcovered : d'.Alike e' := by
    refine Covered.alike hds hd' he' ?_
    rw [← hdd'.digest, ← hee'.digest, hdigest]
  exact hdd'.trans (hcovered.trans hee'.symm)

/-- Known descriptors of one structure are alike. -/
theorem Known.alike_of_same (hds : CollisionFree ds) (hd : d.Known ds) (he : e.Known ds)
    (hsame : d.same e = true) : d.Alike e :=
  hd.alike hds he (digest_eq_of_same hsame)

/-! ## Admissible descriptors -/

/-- The descriptor and its supertypes can be laid out. -/
def Admissible (d : Descriptor) : Prop :=
  ∀ e ∈ d.lineage, e.layoutFault? = none

theorem Admissible.of_alike (h : e.Admissible) (halike : d.Alike e) : d.Admissible := by
  intro c hc
  obtain ⟨b, hb, hcb⟩ := halike.exists_mem_lineage hc
  rw [hcb.layoutFault?]
  exact h b hb

theorem Admissible.of_mem_lineage (h : e.Admissible) (hd : d ∈ e.lineage) : d.Admissible :=
  fun c hc => h c (lineage_subset hd c hc)

end Descriptor

end ObjectEnvelope
