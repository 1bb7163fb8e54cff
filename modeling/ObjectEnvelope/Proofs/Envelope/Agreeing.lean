import ObjectEnvelope.Proofs.Envelope.Verdicts
import ObjectEnvelope.Proofs.TwoRuns

/-!
# Resolutions that agree

Two receivers resolve one schema in lockstep: they visit the same entries in the same order, and
what becomes of each is the same for both. So both find twins for all entries, or both fail with
errors of one kind (`together_resolveAll`).
-/

namespace ObjectEnvelope

namespace Resolver

open Step (Together)

/-- The resolver of another receiver of the same schema. -/
def withLocals (r : Resolver) (locals : LocalTypes) : Resolver :=
  { r with locals }

/-- Two receivers have found types for the same entries, each of which describes both. -/
structure Agree (r : Resolver) (other : LocalTypes) (ds : Set Descriptor) (s s' : Resolution) :
    Prop where
  left : r.Faithful ds s
  right : (r.withLocals other).Faithful ds s'
  same : ∀ place, (s.typeAt? place).isSome = (s'.typeAt? place).isSome

/-- Nothing that was resolved is lost. -/
def Keeps (s t : Resolution) : Prop :=
  ∀ place, (s.typeAt? place).isSome → (t.typeAt? place).isSome

theorem Keeps.trans {s t u : Resolution} (h : Keeps s t) (h' : Keeps t u) : Keeps s u :=
  fun place hplace => h' place (h place hplace)

/-- Both receivers find a type for the entry and go on to agree, or both fail alike. -/
def FindsTwice (r : Resolver) (other : LocalTypes) (ds : Set Descriptor)
    (step step' : Resolve RuntimeType) (p : PlacedEntry) (s s' : Resolution) : Prop :=
  Together step s step' s' fun t u t' u' =>
    r.Agree other ds u u' ∧ Keeps s u ∧ u.typeAt? p.place = some t ∧ u'.typeAt? p.place = some t'

section

variable {r : Resolver} {other : LocalTypes} {ds : Set Descriptor} {p : PlacedEntry}
  {s s' : Resolution} {t t' : RuntimeType}

/-- The types that the two have found for an entry are twins. -/
theorem Agree.twin (h : r.Agree other ds s s') (hr : r.Grounded ds) (hp : p ∈ r.placed)
    (ht : s.typeAt? p.place = some t) (ht' : s'.typeAt? p.place = some t') : t.Twin t' := by
  obtain ⟨hdescribes, hdigest, -⟩ := h.left.found p hp t ht
  obtain ⟨hdescribes', hdigest', -⟩ := h.right.found p hp t' ht'
  have halike := hdescribes.alike hr.closed.names hdescribes'
  exact ⟨halike, hdigest.trans (halike.digest.trans hdigest'.symm)⟩

variable (hds : CollisionFree ds) (hr : r.Grounded ds) (hother : (r.withLocals other).Grounded ds)

include hds hr hother

/-- One entry, once its needs are resolved. -/
theorem Agree.build (h : r.Agree other ds s s') (hp : p ∈ r.placed)
    (hneeds : ∀ need ∈ r.needs p.entry, (s.typeAt? need.place).isSome) :
    r.FindsTwice other ds (r.build p) ((r.withLocals other).build p) p s s' := by
  have hnames := hr.closed.names
  have hneeds' : ∀ need ∈ r.needs p.entry, (s'.typeAt? need.place).isSome :=
    fun need hneed => h.same need.place ▸ hneeds need hneed
  refine (Together.of_yields (h.left.yields_build hds hr hp hneeds)
    (h.right.yields_build hds hother hp hneeds') (fun _ _ _ ha => ha.2.not_fault hnames)
    (fun _ _ _ hb => hb.2.not_fault hnames)
    fun e f he hf => congrArg WireError.kind (he.unique hnames hf)).mono ?_
  rintro t u t' u' ⟨⟨⟨hu, hcons⟩, -⟩, ⟨hu', hcons'⟩, -⟩
  have hplaces := typeAt?_of_cons hcons
  have hplaces' := typeAt?_of_cons hcons'
  refine ⟨⟨hu, hu', fun place => ?_⟩, fun place hplace => ?_, ?_, ?_⟩
  · rw [hplaces, hplaces']
    split
    · rfl
    · exact h.same place
  · rw [hplaces]
    split
    · rfl
    · exact hplace
  · rw [hplaces, if_pos rfl]
  · rw [hplaces', if_pos rfl]

omit hds hr hother in
/-- One need of an entry, which is resolved for both receivers or for neither. -/
theorem Agree.await {need : PlacedEntry} {path : List Nat}
    {deeper deeper' : PlacedEntry → Resolve RuntimeType} (h : r.Agree other ds s s')
    (hdeeper : r.FindsTwice other ds (deeper need) (deeper' need) need s s') :
    Together (await deeper path need) s (await deeper' path need) s'
      fun _ u _ u' => r.Agree other ds u u' ∧ Keeps s u ∧ (u.typeAt? need.place).isSome := by
  refine .get_bind ?_
  have hsame := h.same need.place
  by_cases hnone : (s.typeAt? need.place).isNone
  · have hnone' : (s'.typeAt? need.place).isNone := by
      rwa [← Option.not_isSome, ← hsame, Option.not_isSome]
    rw [if_pos hnone, if_pos hnone']
    refine .guard .rfl rfl fun _ => ?_
    refine .discard (hdeeper.mono ?_)
    rintro t u t' u' ⟨hu, hkeeps, ht, -⟩
    exact ⟨hu, hkeeps, ht ▸ rfl⟩
  · have hnone' : ¬ (s'.typeAt? need.place).isNone := by
      rwa [← Option.not_isSome, ← hsame, Option.not_isSome]
    rw [if_neg hnone, if_neg hnone']
    refine .pure ⟨h, fun _ hplace => hplace, ?_⟩
    rwa [← Option.not_isSome, Bool.not_eq_true', Bool.not_eq_false] at hnone

/-- An entry after its needs, if going deeper is in lockstep. -/
theorem Agree.settle (h : r.Agree other ds s s') (hp : p ∈ r.placed) (path : List Nat)
    {deeper deeper' : PlacedEntry → Resolve RuntimeType}
    (hdeeper : ∀ need ∈ r.needs p.entry, ∀ u u', r.Agree other ds u u' →
      r.FindsTwice other ds (deeper need) (deeper' need) need u u') :
    r.FindsTwice other ds (r.settle deeper path p)
      ((r.withLocals other).settle deeper' path p) p s s' := by
  -- between two needs, those still to come are listed
  let between (rest : List PlacedEntry) (u u' : Resolution) : Prop :=
    r.Agree other ds u u' ∧ Keeps s u ∧ (∀ need ∈ rest, need ∈ r.needs p.entry) ∧
      ∀ need ∈ r.needs p.entry, need ∈ rest ∨ (u.typeAt? need.place).isSome
  refine Together.bind (Together.forM between (fun need rest u u' hbetween => ?_)
    ⟨h, fun _ hplace => hplace, fun _ hneed => hneed, fun _ hneed => .inl hneed⟩) ?_
  · obtain ⟨hu, hkeeps, hrest, hdone⟩ := hbetween
    obtain ⟨hneed, hrest⟩ := List.forall_mem_cons.mp hrest
    refine (hu.await (hdeeper need hneed u u' hu)).mono ?_
    rintro - v - v' ⟨hv, hkeeps', hsome⟩
    refine ⟨hv, hkeeps.trans hkeeps', hrest, fun earlier hearlier => ?_⟩
    rcases hdone earlier hearlier with hmem | hresolved
    · rcases List.mem_cons.mp hmem with rfl | hmem
      · exact .inr hsome
      · exact .inl hmem
    · exact .inr (hkeeps' _ hresolved)
  · rintro - u - u' ⟨hu, hkeeps, -, hdone⟩
    have hneeds : ∀ need ∈ r.needs p.entry, (u.typeAt? need.place).isSome :=
      fun need hneed => (hdone need hneed).resolve_left List.not_mem_nil
    refine (hu.build hds hr hother hp hneeds).mono ?_
    rintro t v t' v' ⟨hv, hkeeps', ht, ht'⟩
    exact ⟨hv, hkeeps.trans hkeeps', ht, ht'⟩

/-- The chain limit is met at the same entry. -/
theorem Agree.visit (h : r.Agree other ds s s') (hp : p ∈ r.placed) (root : String) (room : Nat)
    (path : List Nat) :
    r.FindsTwice other ds (r.visit root room path p)
      ((r.withLocals other).visit root room path p) p s s' := by
  induction room generalizing path p s s' with
  | zero => exact h.settle hds hr hother hp path fun _ _ _ _ _ => .throw rfl
  | succ room ih =>
    exact h.settle hds hr hother hp path fun need hneed u u' hu =>
      ih hu (mem_placed_of_needs hneed) (p.place :: path)

theorem Agree.resolve (h : r.Agree other ds s s') (hp : p ∈ r.placed) :
    r.FindsTwice other ds (r.resolve p) ((r.withLocals other).resolve p) p s s' := by
  refine .get_bind ?_
  have hsame := h.same p.place
  cases ht : s.typeAt? p.place with
  | some t =>
    obtain ⟨t', ht'⟩ : ∃ t', s'.typeAt? p.place = some t' := by
      rw [← Option.isSome_iff_exists, ← hsame, ht, Option.isSome_some]
    rw [ht']
    exact .pure ⟨h, fun _ hplace => hplace, ht, ht'⟩
  | none =>
    have ht' : s'.typeAt? p.place = none := by
      rw [← Option.not_isSome_iff_eq_none, ← hsame, ht]
      simp
    rw [ht']
    exact h.visit hds hr hother hp p.entry.name (r.maxChain - 1) []

/-- **Agreement.** Two receivers of one schema find twins for all its entries, or both fail with
errors of one kind. -/
theorem together_resolveAll (h : r.Agree other ds s s') :
    Together r.resolveAll s (r.withLocals other).resolveAll s' fun types _ types' _ =>
      List.Forall₂ RuntimeType.Twin types types' := by
  have htwin : ∀ p ∈ r.placed, ∀ s s', r.Agree other ds s s' →
      Together (r.resolve p) s ((r.withLocals other).resolve p) s' fun t u t' u' =>
        t.Twin t' ∧ r.Agree other ds u u' := by
    intro p hp s s' h
    refine (h.resolve hds hr hother hp).mono ?_
    rintro t u t' u' ⟨hu, -, ht, ht'⟩
    exact ⟨hu.twin hr hp ht ht', hu⟩
  have hall := Together.each htwin h
  exact hall.mono fun _ _ _ _ hpost => hpost.1

end

end Resolver

end ObjectEnvelope
