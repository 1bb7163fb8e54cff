import ObjectEnvelope.Proofs.Lists
import ObjectEnvelope.Proofs.Runs
import ObjectEnvelope.Proofs.Schema.Collisions
import ObjectEnvelope.Types.LocalTypes

/-!
# Registered types

`LocalTypes.Reached` are the collections that registrations lead to, failed ones included. In each
of them a name is bound once, to a type found by its own digest, and with a type all its supertypes
are bound (`Reached.consistent`).
-/

namespace ObjectEnvelope

theorem RuntimeType.create_eq_ok_iff {id : TypeId} {digest : Digest} {d : Descriptor}
    {t : RuntimeType} :
    RuntimeType.create id digest d = .ok t ↔
      d.layoutFault? = none ∧ t.id = id ∧ t.digest = digest ∧ t.descriptor = d := by
  unfold create
  split
  · next fault hfault => simp [hfault]
  · next hnone =>
    constructor
    · rintro ⟨rfl⟩
      exact ⟨hnone, rfl, rfl, rfl⟩
    · rintro ⟨-, rfl, rfl, rfl⟩
      cases t with
      | mk id digest descriptor layout hlayout hadmissible =>
        subst hlayout
        rfl

theorem RuntimeType.exists_create {d : Descriptor} (h : d.layoutFault? = none) (id : TypeId)
    (digest : Digest) : ∃ t, RuntimeType.create id digest d = .ok t := by
  unfold create
  split
  · next fault hfault => simp [h] at hfault
  · exact ⟨_, rfl⟩

theorem RuntimeType.create_eq_error {d : Descriptor} {fault : LayoutFault}
    (h : d.layoutFault? = some fault) (id : TypeId) (digest : Digest) :
    RuntimeType.create id digest d = .error (.synthesisFailure fault) := by
  unfold create
  split
  · next fault' hfault =>
    obtain rfl := Option.some_inj.mp (h.symm.trans hfault)
    rfl
  · next hnone => simp [h] at hnone

/-- What follows a descriptor in a chain are its supertypes. -/
theorem Descriptor.ancestors_of_split {levels : List Level} {h : Sealed levels}
    {front back : List Descriptor} {e : Descriptor}
    (hsplit : ofLevels levels h = front ++ e :: back) : e.ancestors = back := by
  induction levels generalizing front with
  | nil => simp [ofLevels] at hsplit
  | cons level above ih =>
    cases front with
    | nil =>
      rw [ofLevels, List.nil_append, List.cons_eq_cons] at hsplit
      obtain ⟨rfl, rfl⟩ := hsplit
      rfl
    | cons first front =>
      rw [ofLevels, List.cons_append, List.cons_eq_cons] at hsplit
      exact ih hsplit.2

namespace LocalTypes

variable {ds : Set Descriptor} {locals after : LocalTypes} {d e : Descriptor} {t : RuntimeType}
  {name : String}

/-- A registered type has the name and the digest of the descriptor. -/
def Binds (locals : LocalTypes) (e : Descriptor) : Prop :=
  ∃ t ∈ locals.types, t.name = e.name ∧ t.digest = e.digest

/-- The collections that registrations of covered descriptors lead to. -/
inductive Reached (ds : Set Descriptor) : LocalTypes → Prop
  | empty (home : Nat) : Reached ds (.empty home)
  | register {locals : LocalTypes} {d : Descriptor} (h : Reached ds locals) (hd : d.Covered ds) :
      Reached ds ((register d).after locals)

/-- What holds of every collection of registered types. -/
structure Consistent (ds : Set Descriptor) (locals : LocalTypes) : Prop where
  names : (locals.types.map (·.name)).Nodup
  digest : ∀ t ∈ locals.types, t.digest = t.descriptor.digest
  covered : ∀ t ∈ locals.types, t.descriptor.Covered ds
  /-- With a type its supertypes are bound. -/
  binds : ∀ t ∈ locals.types, ∀ e ∈ t.descriptor.lineage, locals.Binds e

/-! ## Lookups -/

theorem mem_of_lookup? (h : locals.lookup? name = some t) : t ∈ locals.types ∧ t.name = name := by
  unfold lookup? at h
  exact ⟨List.mem_of_find?_eq_some h, by simpa using List.find?_some h⟩

theorem Consistent.lookup?_eq (h : locals.Consistent ds) (ht : t ∈ locals.types) :
    locals.lookup? t.name = some t :=
  find?_key_eq h.names ht

theorem Binds.exists_lookup? (h : locals.Consistent ds) (hbinds : locals.Binds e) :
    ∃ t, locals.lookup? e.name = some t ∧ t.digest = e.digest := by
  obtain ⟨t, ht, hname, hdigest⟩ := hbinds
  exact ⟨t, hname ▸ h.lookup?_eq ht, hdigest⟩

theorem find?_eq_some_iff :
    locals.find? d = some t ↔ locals.lookup? d.name = some t ∧ t.digest = d.digest := by
  unfold find?
  rw [Option.filter_eq_some_iff]
  simp

/-! ## Registrations -/

theorem consistent_empty (home : Nat) : Consistent ds (.empty home) := by
  refine ⟨?_, ?_, ?_, ?_⟩ <;> simp [empty]

/-- Types that are bound stay bound when others are added. -/
theorem Binds.mono (hsubset : ∀ t ∈ locals.types, t ∈ after.types) (h : locals.Binds e) :
    after.Binds e := by
  obtain ⟨t, ht, hname⟩ := h
  exact ⟨t, hsubset t ht, hname⟩

/-- A type of a new name can be added when its supertypes are bound. -/
theorem Consistent.add (h : locals.Consistent ds) (hnew : ∀ u ∈ locals.types, u.name ≠ t.name)
    (hdigest : t.digest = t.descriptor.digest) (hcovered : t.descriptor.Covered ds)
    (hancestors : ∀ e ∈ t.descriptor.ancestors, locals.Binds e) :
    Consistent ds { locals with types := locals.types ++ [t] } := by
  have hself : Binds { locals with types := locals.types ++ [t] } t.descriptor :=
    ⟨t, by simp, rfl, hdigest⟩
  have hold : ∀ e, locals.Binds e → Binds { locals with types := locals.types ++ [t] } e :=
    fun e he => he.mono fun u hu => List.mem_append.mpr (.inl hu)
  refine ⟨?_, ?_, ?_, ?_⟩
  · rw [List.map_append, List.nodup_append]
    refine ⟨h.names, by simp, ?_⟩
    simp only [List.mem_map, List.map_cons, List.map_nil, List.mem_singleton]
    rintro _ ⟨u, hu, rfl⟩ _ rfl
    exact hnew u hu
  · simp only [List.forall_mem_append, List.forall_mem_singleton]
    exact ⟨h.digest, hdigest⟩
  · simp only [List.forall_mem_append, List.forall_mem_singleton]
    exact ⟨h.covered, hcovered⟩
  · simp only [List.forall_mem_append, List.forall_mem_singleton]
    refine ⟨fun u hu e he => hold e (h.binds u hu e he), ?_⟩
    rw [Descriptor.lineage, List.forall_mem_cons]
    exact ⟨hself, fun e he => hold e (hancestors e he)⟩

/-- Binding a name whose supertypes are bound: the collection stays consistent, and the name is
bound in the end unless the step fails. -/
theorem Consistent.leaves_bindName (h : locals.Consistent ds) {bound : List Descriptor}
    (hbound : ∀ e ∈ bound, locals.Binds e) (hd : d.Covered ds)
    (hancestors : ∀ e ∈ d.ancestors, e ∈ bound) :
    Step.Leaves (bindName d) locals
      (fun after => after.Consistent ds ∧ ∀ e ∈ d :: bound, after.Binds e)
      (fun after => after.Consistent ds) := by
  constructor
  · intro t after hrun
    unfold bindName at hrun
    split at hrun
    · next held hlookup =>
      obtain ⟨hheld, hname⟩ := mem_of_lookup? hlookup
      split at hrun
      · next hdigest =>
        cases hrun
        exact ⟨h, List.forall_mem_cons.mpr ⟨⟨_, hheld, hname, hdigest⟩, hbound⟩⟩
      · cases hrun
    · next hlookup =>
      split at hrun
      · next hcreate =>
        cases hrun
        obtain ⟨-, -, hdigest, rfl⟩ := RuntimeType.create_eq_ok_iff.mp hcreate
        have hnew : ∀ u ∈ locals.types, u.name ≠ t.descriptor.name := by
          unfold lookup? at hlookup
          simpa using hlookup
        refine ⟨h.add hnew hdigest hd fun e he => hbound e (hancestors e he), ?_⟩
        rw [List.forall_mem_cons]
        refine ⟨⟨t, by simp, rfl, hdigest⟩, fun e he => (hbound e he).mono fun u hu => ?_⟩
        exact List.mem_append.mpr (.inl hu)
      · cases hrun
  · intro error after hrun
    unfold bindName at hrun
    split at hrun <;> split at hrun <;> cases hrun <;> exact h

/-- A registration keeps the collection consistent; when it succeeds the type and its supertypes are
bound. -/
theorem Consistent.leaves_register (h : locals.Consistent ds) (hd : d.Covered ds) :
    Step.Leaves (register d) locals
      (fun after => after.Consistent ds ∧ ∀ e ∈ d.lineage, after.Binds e)
      (fun after => after.Consistent ds) := by
  have hancestors : Step.Leaves (d.ancestors.reverse.forM fun e => discard (bindName e)) locals
      (fun after => after.Consistent ds ∧ ∀ e ∈ d.ancestors, after.Binds e)
      (fun after => after.Consistent ds) := by
    refine Step.leaves_reverse_forM
      (fun bound s => Consistent ds s ∧ ∀ e ∈ bound, Binds s e)
      (fun front e back hsplit s hs => ?_) ⟨h, by simp⟩
    have hmem : e ∈ d.lineage :=
      List.mem_cons_of_mem _ (hsplit ▸ List.mem_append.mpr (.inr List.mem_cons_self))
    have hback : e.ancestors = back := Descriptor.ancestors_of_split hsplit
    exact hs.1.leaves_bindName hs.2 (hd.of_mem_lineage hmem) fun c hc => hback ▸ hc
  exact hancestors.bind fun _ s hs => hs.1.leaves_bindName hs.2 hd fun e he => he

/-- Every collection that was reached is consistent. -/
theorem Reached.consistent (h : locals.Reached ds) : locals.Consistent ds := by
  induction h with
  | empty home => exact consistent_empty home
  | register _ hd ih => exact (ih.leaves_register hd).after fun _ ht => ht.1

end LocalTypes

/-! ## Known and genuine types -/

/-- The type is found by the digest of its descriptor, which is known. -/
structure RuntimeType.Known (ds : Set Descriptor) (t : RuntimeType) : Prop where
  digest : t.digest = t.descriptor.digest
  known : t.descriptor.Known ds

/-- A known type of the digest of a known descriptor is that of the descriptor. -/
theorem RuntimeType.Known.alike {ds : Set Descriptor} (hds : CollisionFree ds) {t : RuntimeType}
    {d : Descriptor} (ht : t.Known ds) (hd : d.Known ds) (h : t.digest = d.digest) :
    t.descriptor.Alike d :=
  Descriptor.Known.alike hds ht.known hd (ht.digest.symm.trans h)

/-- The type is found by the digest of its descriptor, which is known and can be laid out with all
its supertypes. -/
structure RuntimeType.Genuine (ds : Set Descriptor) (t : RuntimeType) : Prop where
  digest : t.digest = t.descriptor.digest
  known : t.descriptor.Known ds
  admissible : t.descriptor.Admissible

/-- Genuine types are known. -/
theorem RuntimeType.Genuine.isKnown {ds : Set Descriptor} {t : RuntimeType} (h : t.Genuine ds) :
    t.Known ds :=
  ⟨h.digest, h.known⟩

/-- Genuine types of one digest are twins. -/
theorem RuntimeType.Genuine.twin {ds : Set Descriptor} (hds : CollisionFree ds)
    {t u : RuntimeType} (ht : t.Genuine ds) (hu : u.Genuine ds) (h : t.digest = u.digest) :
    t.Twin u :=
  ⟨ht.isKnown.alike hds hu.known (h.trans hu.digest), h⟩

/-- Registered types are genuine, unless digests collide. -/
theorem LocalTypes.Consistent.genuine {ds : Set Descriptor} (hds : CollisionFree ds)
    {locals : LocalTypes} (h : locals.Consistent ds) {t : RuntimeType} (ht : t ∈ locals.types) :
    t.Genuine ds := by
  refine ⟨h.digest t ht, (h.covered t ht).known, fun e he => ?_⟩
  obtain ⟨u, hu, -, hdigest⟩ := h.binds t ht e he
  have halike : e.Alike u.descriptor := by
    refine ((h.covered t ht).of_mem_lineage he).alike hds (h.covered u hu) ?_
    rw [← h.digest u hu, hdigest]
  rw [halike.layoutFault?]
  exact u.admissible

end ObjectEnvelope
