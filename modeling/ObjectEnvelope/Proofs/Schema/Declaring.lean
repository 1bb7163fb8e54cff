import ObjectEnvelope.Proofs.Schema.Alike

/-!
# Declaring descriptors

A declaration is refused for a repeated field, whatever stands above it. Otherwise it makes one
level below those of the supertype, and the digest of the result hangs on nothing but the
declaration and the digest of the supertype.
-/

namespace ObjectEnvelope

namespace Descriptor

/-- The levels above a type that is declared below `parent`. -/
def levelsFrom : Option Descriptor → List Level
  | none => []
  | some p => p.level :: p.above

theorem levelsFrom_parent? (d : Descriptor) : levelsFrom d.parent? = d.above := by
  cases hparent : d.parent? with
  | none => exact (parent?_eq_none_iff.mp hparent).symm
  | some p => exact (parent?_eq_some_iff.mp hparent).symm

theorem parent?_eq_of_above {d : Descriptor} {parent : Option Descriptor}
    (h : d.above = levelsFrom parent) : d.parent? = parent := by
  cases parent with
  | none => exact parent?_eq_none_iff.mpr h
  | some p => exact parent?_eq_some_iff.mpr h

/-- What is declared: the level of the declaration below those of the supertype, unless a field is
repeated. -/
theorem declare_cases (c : Declaration) (parent : Option Descriptor) :
    (∃ field, firstRepeat? (c.fields.map (·.name)) = some field ∧
      declare c parent = .error (.duplicateFieldName c.name field)) ∨
    ∃ d, declare c parent = .ok d ∧ d.above = levelsFrom parent ∧
      d.level = { c with interfaces := c.interfaces.eraseDups }.toLevel (levelsFrom parent) := by
  unfold declare
  split
  · next field hfield => exact .inl ⟨field, hfield, rfl⟩
  · refine .inr ⟨_, rfl, ?_, ?_⟩ <;> cases parent <;> rfl

/-- A declaration without repeated fields makes a type. -/
theorem exists_declare_of_nodup {c : Declaration} (hfields : (c.fields.map (·.name)).Nodup)
    (parent : Option Descriptor) :
    ∃ d, declare c parent = .ok d ∧ d.above = levelsFrom parent ∧
      d.level = { c with interfaces := c.interfaces.eraseDups }.toLevel (levelsFrom parent) := by
  rcases declare_cases c parent with ⟨field, hfield, -⟩ | hmade
  · rw [firstRepeat?_eq_none_iff.mpr hfields] at hfield
    cases hfield
  · exact hmade

theorem exists_declare {c : Declaration} (parent : Option Descriptor)
    (hfields : (c.fields.map (·.name)).Nodup) (hinterfaces : c.interfaces.Nodup) :
    ∃ d, declare c parent = .ok d ∧ d.above = levelsFrom parent ∧
      d.level = c.toLevel (levelsFrom parent) := by
  obtain ⟨d, hdeclare, habove, hlevel⟩ := exists_declare_of_nodup hfields parent
  rw [eraseDups_eq_self hinterfaces] at hlevel
  exact ⟨d, hdeclare, habove, hlevel⟩

/-- The descriptor declared again below another supertype: it has the same name, the same digest if
the supertypes have, and is alike if they are. -/
theorem exists_redeclare (d : Descriptor) {parent : Option Descriptor}
    (hdigest : Option.Rel (fun a p => a.digest = p.digest) parent d.parent?) :
    ∃ d', declare ⟨d.name, d.kind, d.fields, d.interfaces⟩ parent = .ok d' ∧ d'.name = d.name ∧
      d'.digest = d.digest ∧ (Option.Rel Alike parent d.parent? → d'.Alike d) := by
  obtain ⟨hsealed, hfields, hinterfaces, -⟩ := d.isSealed
  obtain ⟨d', hdeclare, habove, hlevel⟩ := exists_declare parent hfields hinterfaces
  have hhead : (levelsFrom parent).head?.map (·.digest) = d.above.head?.map (·.digest) := by
    rw [← levelsFrom_parent? d]
    generalize d.parent? = above at hdigest
    cases hdigest with
    | none => rfl
    | some h => exact congrArg some h
  refine ⟨d', hdeclare, ?_, ?_, fun halike => ?_⟩
  · rw [name, hlevel]
    rfl
  · rw [digest, digest, hlevel, hsealed, Declaration.toLevel, hhead]
  · have hlevels : List.Forall₂ Level.Alike (levelsFrom parent) d.above := by
      rw [← levelsFrom_parent? d]
      generalize d.parent? = above at halike
      cases halike with
      | none => exact .nil
      | some h => exact h
    rw [Alike, hlevel, habove]
    exact .cons ⟨rfl, rfl, rfl, .refl _⟩ hlevels

end Descriptor

end ObjectEnvelope
