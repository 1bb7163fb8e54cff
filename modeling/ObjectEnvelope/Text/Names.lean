/-!
# Lists of names

Names are declared at most once in a place. `firstRepeat?` finds the first name that stands after
its like, and `List.eraseDups` keeps the first of each.
-/

namespace ObjectEnvelope

/-- The first of the names that occurs in `seen` or further left. -/
def firstRepeatAfter? (seen : List String) : List String → Option String
  | [] => none
  | name :: rest => if name ∈ seen then some name else firstRepeatAfter? (name :: seen) rest

/-- The first name that occurs a second time. -/
def firstRepeat? (names : List String) : Option String :=
  firstRepeatAfter? [] names

theorem firstRepeatAfter?_eq_none_iff {seen names : List String} :
    firstRepeatAfter? seen names = none ↔ names.Nodup ∧ ∀ name ∈ names, name ∉ seen := by
  induction names generalizing seen with
  | nil => simp [firstRepeatAfter?]
  | cons name rest ih =>
    unfold firstRepeatAfter?
    split
    · simp_all
    · rw [ih]
      simp only [List.nodup_cons, List.mem_cons, not_or, forall_eq_or_imp]
      constructor
      · intro ⟨hnodup, h⟩
        exact ⟨⟨fun hmem => (h name hmem).1 rfl, hnodup⟩, by assumption,
          fun other hmem => (h other hmem).2⟩
      · intro ⟨⟨hname, hnodup⟩, _, h⟩
        exact ⟨hnodup, fun other hmem => ⟨fun heq => hname (heq ▸ hmem), h other hmem⟩⟩

theorem firstRepeat?_eq_none_iff {names : List String} :
    firstRepeat? names = none ↔ names.Nodup := by
  simp [firstRepeat?, firstRepeatAfter?_eq_none_iff]

theorem nodup_eraseDups (names : List String) : names.eraseDups.Nodup := by
  match names with
  | [] => simp
  | name :: rest =>
    have hlength := List.length_filter_le (fun other => !other == name) rest
    have ih := nodup_eraseDups (rest.filter fun other => !other == name)
    rw [List.eraseDups_cons, List.nodup_cons]
    exact ⟨by simp [List.mem_eraseDups], ih⟩
  termination_by names.length

theorem eraseDups_eq_self {names : List String} (h : names.Nodup) : names.eraseDups = names := by
  induction names with
  | nil => rfl
  | cons name rest ih =>
    obtain ⟨hname, hrest⟩ := List.nodup_cons.mp h
    rw [List.eraseDups_cons, List.filter_eq_self.mpr, ih hrest]
    intro other hother
    simp only [Bool.not_eq_true', beq_eq_false_iff_ne]
    exact fun heq => hname (heq ▸ hother)

end ObjectEnvelope
