import ObjectEnvelope.Proofs.Types.Registrations

/-!
# Names and what they are bound to

A registration takes the levels of a chain from the topmost down. Each level finds its name bound to
its own digest, or free, or it ends the registration; what was bound before stays, and what the
levels above have bound stays too (`LocalTypes.Bound`). So which registrations succeed can be told
from the collection beforehand, level by level (`LocalTypes.register_cases`), and what holds of
every binding holds after failed calls as well (`LocalTypes.register_of_reached`).
-/

namespace ObjectEnvelope

namespace LocalTypes

variable {ds : Set Descriptor} {locals between after : LocalTypes} {chain : List Descriptor}
  {d p e : Descriptor} {t : RuntimeType} {name : String} {error : WireError}

/-! ## One level -/

/-- The name of a level is bound to its digest already, or it is free and the level is laid out. -/
theorem bindName_eq_ok_iff :
    bindName d locals = .ok t after ↔
      (locals.lookup? d.name = some t ∧ t.digest = d.digest ∧ after = locals) ∨
      (locals.lookup? d.name = none ∧
        RuntimeType.create ⟨.known, locals.home, locals.types.length⟩ d.digest d = .ok t ∧
        after = { locals with types := locals.types ++ [t] }) := by
  unfold bindName
  cases hlookup : locals.lookup? d.name with
  | some held =>
    by_cases hdigest : held.digest = d.digest
    · simp only [hdigest, if_true, Option.some_inj, reduceCtorEq, false_and, or_false]
      constructor
      · rintro ⟨⟩
        exact ⟨rfl, hdigest, rfl⟩
      · rintro ⟨rfl, -, rfl⟩
        rfl
    · simp only [hdigest, if_false, Option.some_inj, reduceCtorEq, false_and, or_false, false_iff]
      rintro ⟨rfl, hdigest', -⟩
      exact hdigest hdigest'
  | none =>
    simp only [reduceCtorEq, false_and, true_and, false_or]
    cases RuntimeType.create ⟨.known, locals.home, locals.types.length⟩ d.digest d with
    | error e => simp
    | ok new =>
      constructor
      · rintro ⟨⟩
        exact ⟨rfl, rfl⟩
      · rintro ⟨⟨⟩, rfl⟩
        rfl

/-- A level is refused for another structure under its name, or since it cannot be laid out. -/
theorem bindName_eq_error_iff :
    bindName d locals = .error error after ↔ after = locals ∧
      ((∃ held, locals.lookup? d.name = some held ∧ held.digest ≠ d.digest ∧
          error = .notSerializable (.nameRegistered d.name held.digest d.digest)) ∨
        (locals.lookup? d.name = none ∧
          ∃ fault, d.layoutFault? = some fault ∧ error = .synthesisFailure fault)) := by
  unfold bindName
  cases hlookup : locals.lookup? d.name with
  | some held =>
    by_cases hdigest : held.digest = d.digest
    · simp [hdigest]
    · simp only [hdigest, if_false, Option.some_inj, reduceCtorEq, false_and, or_false]
      constructor
      · rintro ⟨⟩
        exact ⟨rfl, held, rfl, hdigest, rfl⟩
      · rintro ⟨rfl, _, rfl, -, rfl⟩
        rfl
  | none =>
    simp only [reduceCtorEq, false_and, exists_false, true_and, false_or]
    cases hfault : d.layoutFault? with
    | none =>
      obtain ⟨t, hcreate⟩ := RuntimeType.exists_create hfault
        ⟨.known, locals.home, locals.types.length⟩ d.digest
      simp [hcreate]
    | some fault =>
      simp only [RuntimeType.create_eq_error hfault, Option.some_inj]
      constructor
      · rintro ⟨⟩
        exact ⟨rfl, fault, rfl, rfl⟩
      · rintro ⟨rfl, _, rfl, rfl⟩
        rfl

/-! ## Chains -/

theorem register_of_top (h : d.parent? = none) : register d = bindName d := by
  rw [register, Descriptor.ancestors_eq_nil h]
  rfl

/-- A registration is that of the supertype, followed by the level itself. -/
theorem register_of_parent? (h : d.parent? = some p) :
    register d = register p >>= fun _ => bindName d := by
  rw [register, register, Descriptor.ancestors_of_parent? h, Descriptor.lineage, List.reverse_cons,
    List.forM_eq_forM, List.forM_append]
  simp [Functor.discard, map_const]

/-- The digest that a name is bound to once the levels of a chain are, the topmost first: names keep
what they are bound to, so of two levels with one name the upper one counts. -/
def digestAfter (locals : LocalTypes) (chain : List Descriptor) (name : String) : Option Digest :=
  ((locals.lookup? name).map (·.digest)).or
    ((chain.reverse.find? (·.name == name)).map (·.digest))

/-- When its turn comes, the name of the level is bound to its digest, or it is free and the level
can be laid out. -/
def Admits (locals : LocalTypes) (d : Descriptor) : Prop :=
  locals.digestAfter d.ancestors d.name = some d.digest ∨
    (locals.digestAfter d.ancestors d.name = none ∧ d.layoutFault? = none)

theorem digestAfter_cons (d : Descriptor) (name : String) :
    locals.digestAfter (d :: chain) name =
      (locals.digestAfter chain name).or (if d.name = name then some d.digest else none) := by
  unfold digestAfter
  rw [List.reverse_cons, List.find?_append, Option.map_or, Option.or_assoc, List.find?_singleton]
  by_cases hname : d.name = name <;> simp [hname]

theorem lookup?_append (t : RuntimeType) (name : String) :
    lookup? { locals with types := locals.types ++ [t] } name =
      (locals.lookup? name).or (if t.name = name then some t else none) := by
  unfold lookup?
  rw [List.find?_append, List.find?_singleton]
  by_cases hname : t.name = name <;> simp [hname]

/-- What the levels of a chain lead to, the topmost first, when none of them is refused. -/
structure Bound (locals : LocalTypes) (chain : List Descriptor) (after : LocalTypes) : Prop where
  types : ∃ made, after.types = locals.types ++ made ∧
    ∀ t ∈ made, t.descriptor ∈ chain ∧ t.origin = .known
  digests : ∀ name, (after.lookup? name).map (·.digest) = locals.digestAfter chain name
  binds : ∀ e ∈ chain, after.Binds e

theorem Bound.refl (locals : LocalTypes) : Bound locals [] locals where
  types := ⟨[], (List.append_nil _).symm, by simp⟩
  digests := fun name => by simp [digestAfter]
  binds := by simp

/-- What is bound stays bound. -/
theorem Bound.lookup?_eq_some (h : Bound locals chain after)
    (hlookup : locals.lookup? name = some t) : after.lookup? name = some t := by
  obtain ⟨made, hmade, -⟩ := h.types
  unfold lookup? at hlookup ⊢
  rw [hmade, List.find?_append, hlookup, Option.some_or]

/-- What is bound was bound before, or is the type of a level. -/
theorem Bound.lookup?_cases (h : Bound locals chain after) (hlookup : after.lookup? name = some t) :
    locals.lookup? name = some t ∨ t.descriptor ∈ chain := by
  obtain ⟨made, hmade, hmem⟩ := h.types
  unfold lookup? at hlookup ⊢
  rw [hmade, List.find?_append, Option.or_eq_some_iff] at hlookup
  exact hlookup.imp_right fun hnew => (hmem t (List.mem_of_find?_eq_some hnew.2)).1

/-- One more level that finds its name bound. -/
theorem Bound.found (h : Bound locals chain after) (hlookup : after.lookup? d.name = some t)
    (hdigest : t.digest = d.digest) : Bound locals (d :: chain) after where
  types := by
    obtain ⟨made, hmade, hmem⟩ := h.types
    exact ⟨made, hmade, fun t ht => ⟨List.mem_cons_of_mem _ (hmem t ht).1, (hmem t ht).2⟩⟩
  digests := by
    intro name
    rw [digestAfter_cons, ← h.digests]
    by_cases hname : d.name = name
    · rw [← hname, hlookup, Option.map_some, Option.some_or]
    · rw [if_neg hname, Option.or_none]
  binds := by
    obtain ⟨hmem, hname⟩ := mem_of_lookup? hlookup
    exact List.forall_mem_cons.mpr ⟨⟨t, hmem, hname, hdigest⟩, h.binds⟩

/-- One more level that finds its name free. -/
theorem Bound.add (h : Bound locals chain after) (horigin : t.origin = .known)
    (hdigest : t.digest = t.descriptor.digest) :
    Bound locals (t.descriptor :: chain) { after with types := after.types ++ [t] } where
  types := by
    obtain ⟨made, hmade, hmem⟩ := h.types
    refine ⟨made ++ [t], by rw [hmade, List.append_assoc], ?_⟩
    simp only [List.forall_mem_append, List.forall_mem_singleton]
    exact ⟨fun u hu => ⟨List.mem_cons_of_mem _ (hmem u hu).1, (hmem u hu).2⟩,
      List.mem_cons_self, horigin⟩
  digests := by
    intro name
    rw [digestAfter_cons, lookup?_append, RuntimeType.name, Option.map_or, h.digests]
    by_cases hname : t.descriptor.name = name
    · rw [if_pos hname, if_pos hname, Option.map_some, hdigest]
    · rw [if_neg hname, if_neg hname, Option.map_none]
  binds := by
    refine List.forall_mem_cons.mpr ⟨⟨t, by simp, rfl, hdigest⟩, fun e he => ?_⟩
    exact (h.binds e he).mono fun u hu => List.mem_append.mpr (.inl hu)

/-- One level, whose turn has come: it is bound if it is admitted, and ends the registration if
not. -/
theorem bindName_cases (h : Bound locals d.ancestors between) :
    (locals.Admits d ∧ ∃ t after, bindName d between = .ok t after ∧
      Bound locals d.lineage after ∧ after.lookup? d.name = some t) ∨
    (¬ locals.Admits d ∧ ∃ error, bindName d between = .error error between) := by
  have hdigests := h.digests d.name
  unfold Admits
  rw [← hdigests]
  cases hlookup : between.lookup? d.name with
  | some held =>
    by_cases hdigest : held.digest = d.digest
    · exact .inl ⟨.inl (by rw [Option.map_some, hdigest]), held, between,
        bindName_eq_ok_iff.mpr (.inl ⟨hlookup, hdigest, rfl⟩), h.found hlookup hdigest, hlookup⟩
    · refine .inr ⟨by simp [hdigest],
        .notSerializable (.nameRegistered d.name held.digest d.digest), ?_⟩
      exact bindName_eq_error_iff.mpr ⟨rfl, .inl ⟨held, hlookup, hdigest, rfl⟩⟩
  | none =>
    cases hfault : d.layoutFault? with
    | none =>
      obtain ⟨t, hcreate⟩ := RuntimeType.exists_create hfault
        ⟨.known, between.home, between.types.length⟩ d.digest
      refine .inl ⟨by simp, t, _, bindName_eq_ok_iff.mpr (.inr ⟨hlookup, hcreate, rfl⟩), ?_⟩
      obtain ⟨-, hid, hdigest, rfl⟩ := RuntimeType.create_eq_ok_iff.mp hcreate
      refine ⟨h.add (by rw [RuntimeType.origin, hid]) hdigest, ?_⟩
      rw [lookup?_append, hlookup, Option.none_or, RuntimeType.name, if_pos rfl]
    | some fault =>
      refine .inr ⟨by simp, .synthesisFailure fault, ?_⟩
      exact bindName_eq_error_iff.mpr ⟨rfl, .inr ⟨hlookup, fault, hfault, rfl⟩⟩

/-- A registration succeeds if every level is admitted, and binds them all; otherwise it ends at the
topmost level that is not, and binds those above it. -/
theorem register_cases (d : Descriptor) (locals : LocalTypes) :
    ((∀ e ∈ d.lineage, locals.Admits e) ∧ ∃ t after, register d locals = .ok t after ∧
      Bound locals d.lineage after ∧ after.lookup? d.name = some t) ∨
    ∃ failing ∈ d.lineage, ¬ locals.Admits failing ∧ (∀ e ∈ failing.ancestors, locals.Admits e) ∧
      ∃ error after, register d locals = .error error after ∧
        Bound locals failing.ancestors after := by
  induction d using Descriptor.induct with
  | top d hparent =>
    have hancestors := Descriptor.ancestors_eq_nil hparent
    have hstart : Bound locals d.ancestors locals := hancestors ▸ .refl locals
    rw [register_of_top hparent]
    rcases bindName_cases hstart with ⟨hadmits, hrun⟩ | ⟨hrefused, error, hrun⟩
    · refine .inl ⟨?_, hrun⟩
      rw [Descriptor.lineage, hancestors]
      exact List.forall_mem_singleton.mpr hadmits
    · refine .inr ⟨d, d.mem_lineage_self, hrefused, ?_, error, locals, hrun, hstart⟩
      simp [hancestors]
  | under d p hparent ih =>
    have hancestors := Descriptor.ancestors_of_parent? hparent
    rw [register_of_parent? hparent]
    rcases ih with ⟨habove, u, between, hrun, hbound, -⟩ |
      ⟨failing, hmem, hrefused, habove, error, after, hrun, hbound⟩
    · rw [← hancestors] at hbound habove
      rcases bindName_cases hbound with ⟨hadmits, t, after, hrun', hafter⟩ |
        ⟨hrefused, error, hrun'⟩
      · refine .inl ⟨List.forall_mem_cons.mpr ⟨hadmits, habove⟩, t, after, ?_, hafter⟩
        exact Step.bind_eq_ok_iff.mpr ⟨u, between, hrun, hrun'⟩
      · refine .inr ⟨d, d.mem_lineage_self, hrefused, habove, error, between, ?_, hbound⟩
        exact Step.bind_eq_error_iff.mpr (.inr ⟨u, between, hrun, hrun'⟩)
    · refine .inr ⟨failing, ?_, hrefused, habove, error, after, ?_, hbound⟩
      · exact List.mem_cons_of_mem _ (hancestors ▸ hmem)
      · exact Step.bind_eq_error_iff.mpr (.inl hrun)

/-- A registration succeeds exactly if every level is admitted. -/
theorem exists_register_iff :
    (∃ t after, register d locals = .ok t after) ↔ ∀ e ∈ d.lineage, locals.Admits e := by
  rcases register_cases d locals with ⟨hadmits, t, after, hrun, -⟩ |
    ⟨failing, hmem, hrefused, -, error, after, hrun, -⟩
  · exact ⟨fun _ => hadmits, fun _ => ⟨t, after, hrun⟩⟩
  · refine ⟨?_, fun hadmits => absurd (hadmits failing hmem) hrefused⟩
    rintro ⟨t, after', hrun'⟩
    cases hrun.symm.trans hrun'

theorem bound_of_register (h : register d locals = .ok t after) :
    Bound locals d.lineage after ∧ after.lookup? d.name = some t := by
  rcases register_cases d locals with ⟨-, t', after', hrun, hbound⟩ |
    ⟨-, -, -, -, error, after', hrun, -⟩
  · cases h.symm.trans hrun
    exact hbound
  · cases h.symm.trans hrun

/-- A registration that fails ends at the topmost level that is not admitted. -/
theorem exists_refused_of_register (h : register d locals = .error error after) :
    ∃ failing ∈ d.lineage, ¬ locals.Admits failing ∧ (∀ e ∈ failing.ancestors, locals.Admits e) ∧
      Bound locals failing.ancestors after := by
  rcases register_cases d locals with ⟨-, t, after', hrun, -⟩ |
    ⟨failing, hmem, hrefused, habove, error', after', hrun, hbound⟩
  · cases h.symm.trans hrun
  · cases h.symm.trans hrun
    exact ⟨failing, hmem, hrefused, habove, hbound⟩

/-! ## Histories -/

/-- Whether it succeeds or fails, a registration binds some levels of the chain. -/
theorem exists_bound_after (d : Descriptor) (locals : LocalTypes) :
    ∃ chain, Bound locals chain ((register d).after locals) := by
  cases hrun : register d locals with
  | ok t after =>
    rw [Step.after_of_ok hrun]
    exact ⟨_, (bound_of_register hrun).1⟩
  | error error after =>
    rw [Step.after_of_error hrun]
    obtain ⟨failing, -, -, -, hbound⟩ := exists_refused_of_register hrun
    exact ⟨_, hbound⟩

/-- The collections that further registrations lead to, failed ones included. -/
inductive LeadsTo (locals : LocalTypes) : LocalTypes → Prop
  | refl : LeadsTo locals locals
  | register {between : LocalTypes} (d : Descriptor) (h : LeadsTo locals between) :
      LeadsTo locals ((register d).after between)

theorem LeadsTo.lookup?_eq_some (h : locals.LeadsTo after)
    (hlookup : locals.lookup? name = some t) : after.lookup? name = some t := by
  induction h with
  | refl => exact hlookup
  | register d _ ih =>
    obtain ⟨chain, hbound⟩ := exists_bound_after d _
    exact hbound.lookup?_eq_some ih

theorem Reached.origin_eq (h : locals.Reached ds) : ∀ t ∈ locals.types, t.origin = .known := by
  induction h with
  | empty home => simp [LocalTypes.empty]
  | register _ _ ih =>
    obtain ⟨chain, hbound⟩ := exists_bound_after _ _
    obtain ⟨made, hmade, hmem⟩ := hbound.types
    rw [hmade, List.forall_mem_append]
    exact ⟨ih, fun t ht => (hmem t ht).2⟩

/-- What holds of the type that is bound to a name. -/
structure Binding (locals : LocalTypes) (name : String) (t : RuntimeType) : Prop where
  name_eq : t.name = name
  origin : t.origin = .known
  digest : t.digest = t.descriptor.digest
  /-- The name of every supertype is bound to its digest. -/
  ancestors : ∀ e ∈ t.descriptor.ancestors,
    ∃ u, locals.lookup? e.name = some u ∧ u.digest = e.digest

theorem Reached.binding (h : locals.Reached ds) (hlookup : locals.lookup? name = some t) :
    locals.Binding name t := by
  obtain ⟨hmem, hname⟩ := mem_of_lookup? hlookup
  have hconsistent := h.consistent
  refine ⟨hname, h.origin_eq t hmem, hconsistent.digest t hmem, fun e he => ?_⟩
  exact (hconsistent.binds t hmem e (List.mem_cons_of_mem _ he)).exists_lookup? hconsistent

/-- **What registrations leave in the collection.** In every collection that registrations lead to,
a name is bound, for good, to a local type of that name with the digest of its descriptor, and with
it the names of all its supertypes to theirs. A call succeeds exactly if every level of the chain is
admitted when its turn comes, and returns the type bound to the name; otherwise it ends at the
topmost level that is not admitted, keeps all bindings and adds those of levels above that one
only. -/
theorem register_of_reached (h : locals.Reached Set.univ) :
    (∀ name t, locals.lookup? name = some t → locals.Binding name t) ∧
    (∀ later, locals.LeadsTo later → ∀ name t, locals.lookup? name = some t →
      later.lookup? name = some t) ∧
    ∀ d,
      (∀ p u between, d.parent? = some p → register p locals = .ok u between →
        (between.lookup? d.name).map (·.digest) = locals.digestAfter d.ancestors d.name) ∧
      ((∃ t after, register d locals = .ok t after) ↔ ∀ e ∈ d.lineage, locals.Admits e) ∧
      (∀ t after, register d locals = .ok t after → after.lookup? d.name = some t) ∧
      ∀ error after, register d locals = .error error after →
        ∃ failing ∈ d.lineage, ¬ locals.Admits failing ∧
          (∀ e ∈ failing.ancestors, locals.Admits e ∧ after.Binds e) ∧
          (∀ name t, locals.lookup? name = some t → after.lookup? name = some t) ∧
          ∀ name t, after.lookup? name = some t →
            locals.lookup? name = some t ∨ t.descriptor ∈ failing.ancestors := by
  refine ⟨fun name t => h.binding, fun later hlater name t => hlater.lookup?_eq_some,
    fun d => ⟨fun p u between hparent hrun => ?_, exists_register_iff,
      fun t after hrun => (bound_of_register hrun).2, fun error after hrun => ?_⟩⟩
  · -- the turn of a level comes when the registration of its supertype is through
    rw [(bound_of_register hrun).1.digests, Descriptor.ancestors_of_parent? hparent]
  · obtain ⟨failing, hmem, hrefused, habove, hbound⟩ := exists_refused_of_register hrun
    exact ⟨failing, hmem, hrefused, fun e he => ⟨habove e he, hbound.binds e he⟩,
      fun name t => hbound.lookup?_eq_some, fun name t => hbound.lookup?_cases⟩

instance (locals : LocalTypes) (d : Descriptor) : Decidable (locals.Admits d) :=
  inferInstanceAs (Decidable (_ ∨ _))

/-- A vehicle with a number. -/
def vehicle : Descriptor :=
  ⟨Declaration.toLevel ⟨"Vehicle", .composite, [.mandatory "id" (.primitive (.scalar .u32))], []⟩
    [], [], Declaration.sealed_toLevel (by decide) (by decide) trivial⟩

/-- A thing of any sort. -/
def thing : Descriptor :=
  ⟨Declaration.toLevel ⟨"Thing", .composite, [], []⟩ [], [],
    Declaration.sealed_toLevel (by decide) (by decide) trivial⟩

/-- A vehicle that is a thing, and has no number. -/
def moved : Descriptor :=
  ⟨Declaration.toLevel ⟨"Vehicle", .composite, [], []⟩ [thing.level], [thing.level],
    Declaration.sealed_toLevel (by decide) (by decide) thing.isSealed⟩

/-- A car as such a vehicle. -/
def car : Descriptor :=
  ⟨Declaration.toLevel ⟨"Car", .composite, [], []⟩ [moved.level, thing.level],
    [moved.level, thing.level],
    Declaration.sealed_toLevel (by decide) (by decide) moved.isSealed⟩

/-- The collection that knows vehicles with a number only. -/
def garage : LocalTypes := (register vehicle).after (.empty 0)

/-- A car is refused at its supertype, whose name is bound to another structure. What is above that
has been bound by then, and the car is not. -/
theorem register_of_reached_car :
    ∃ error after failing, register car garage = .error error after ∧ failing ∈ car.lineage ∧
      failing.name = "Vehicle" ∧ after.Binds thing ∧
      (∀ name t, garage.lookup? name = some t → after.lookup? name = some t) ∧
      ∀ name t, after.lookup? name = some t →
        garage.lookup? name = some t ∨ t.descriptor ∈ failing.ancestors := by
  have hgarage : garage.Reached Set.univ := .register (.empty 0) fun _ _ => trivial
  obtain ⟨-, -, hregister⟩ := register_of_reached hgarage
  obtain ⟨-, -, -, hfails⟩ := hregister car
  obtain ⟨error, after, hrun, -⟩ := Step.exists_of_failure?
    (show Step.failure? (register car) garage = some .notSerializable by decide +kernel)
  obtain ⟨failing, hmem, hrefused, habove, hkept, hadded⟩ := hfails error after hrun
  have hlevels : ∀ e ∈ car.lineage, garage.Admits e ∨ e.name = "Vehicle" ∧ thing ∈ e.ancestors := by
    decide +kernel
  obtain ⟨hname, hthing⟩ := (hlevels failing hmem).resolve_left hrefused
  exact ⟨error, after, failing, hrun, hmem, hname, (habove thing hthing).2, hkept, hadded⟩

end LocalTypes

end ObjectEnvelope
