import ObjectEnvelope.Proofs.Schema.Inheritance
import ObjectEnvelope.Proofs.Types.Bindings
import ObjectEnvelope.Proofs.Types.Syntheses

/-!
# Layouts of the types that are given out

A registration climbs to the topmost supertype, a synthesis to the first that is registered or made
already, and both lay out what they have passed on the way down. Since whatever they stop at was
laid out in the same manner, every type that they give out has all of its supertypes laid out
(`GivenOut.admissible`), and so the slots of these in their places (`layout_of_givenOut`).
-/

namespace ObjectEnvelope

/-- The caches that syntheses of known descriptors lead to, failed ones included, whatever digests
they keep descriptors under. -/
inductive SynthesisCache.Built (ds : Set Descriptor) : SynthesisCache → Prop
  | empty (home : Nat) (key : Descriptor → Digest) : Built ds ⟨home, key, []⟩
  | synthesize {cache : SynthesisCache} {d : Descriptor} {isLocal : Descriptor → Bool}
      (h : Built ds cache) (hd : d.Known ds) (hlocal : HonestLookup ds isLocal) :
      Built ds ((synthesize isLocal d).after cache)

variable {ds : Set Descriptor}

/-- Every cache that was built is founded. -/
theorem SynthesisCache.Built.founded {cache : SynthesisCache} (hds : CollisionFree ds)
    (h : cache.Built ds) : cache.Founded ds := by
  induction h with
  | empty home key => exact fun t ht => absurd ht List.not_mem_nil
  | synthesize _ hd hlocal ih => exact (ih.leaves_synthesize hds hd hlocal).after fun _ h => h

namespace RuntimeType

variable {t : RuntimeType}

/-- A registration or a synthesis returns the type, in a state that calls have led to. -/
inductive GivenOut (ds : Set Descriptor) (t : RuntimeType) : Prop
  | registered {locals after : LocalTypes} {d : Descriptor} (h : locals.Reached ds)
      (hd : d.Covered ds) (hrun : LocalTypes.register d locals = .ok t after)
  | synthesized {cache after : SynthesisCache} {d : Descriptor} {isLocal : Descriptor → Bool}
      (h : cache.Built ds) (hd : d.Known ds) (hlocal : HonestLookup ds isLocal)
      (hrun : SynthesisCache.synthesize isLocal d cache = .ok t after)

/-- The supertypes of a type that is given out can be laid out as well. -/
theorem GivenOut.admissible (hds : CollisionFree ds) (h : t.GivenOut ds) :
    t.descriptor.Admissible := by
  cases h with
  | @registered locals after d h hd hrun =>
    have hafter : after.Reached ds := Step.after_of_ok hrun ▸ h.register hd
    have ht := (LocalTypes.mem_of_lookup? (LocalTypes.bound_of_register hrun).2).1
    exact (hafter.consistent.genuine hds ht).admissible
  | @synthesized cache after d isLocal h hd hlocal hrun =>
    have hafter : after.Built ds := Step.after_of_ok hrun ▸ h.synthesize hd hlocal
    obtain ⟨_, between, -, -, hone⟩ := SynthesisCache.synthesize_eq_ok_iff.mp hrun
    have ht : t ∈ after.types := by
      rcases SynthesisCache.synthesizeOne_cases hone with ⟨ht, -, rfl⟩ | ⟨-, rfl⟩
      · exact ht
      · exact List.mem_append_right _ (List.mem_singleton_self t)
    exact (hafter.founded hds t ht).2

/-- **Layouts along a chain.** The names in the chain of a type that is given out are distinct, and
all types of the chain are of its kind. A composite type or an interface has the slots that its
supertypes have, each in its place there, and an enum has none, but constants that are numbered as
they are declared. -/
theorem layout_of_givenOut (hds : CollisionFree ds) (h : t.GivenOut ds) :
    (t.descriptor.lineage.map (·.name)).Nodup ∧ (∀ e ∈ t.descriptor.lineage, e.kind = t.kind) ∧
      (t.kind ≠ .enumeration → t.InheritsSlots) ∧ (t.kind = .enumeration → t.NumbersConstants) := by
  have hadmissible := h.admissible hds
  refine ⟨?_, hadmissible.kind_eq, inheritsSlots hadmissible, numbersConstants⟩
  rw [← Descriptor.chainNames_eq]
  exact (Descriptor.layoutFault?_eq_none_iff.mp t.admissible).1

/-- What is kept of everything. -/
def record : Descriptor :=
  ⟨Declaration.toLevel
    ⟨"Record", .composite, [.mandatory "id" (.primitive (.scalar .u32)), .anything "label"], []⟩
    [], [], Declaration.sealed_toLevel (by decide) (by decide) trivial⟩

/-- A record that declares the label again, behind a field of its own. -/
def book : Descriptor :=
  ⟨Declaration.toLevel
    ⟨"Book", .composite, [.mandatory "pages" (.primitive (.scalar .u32)), .anything "label"], []⟩
    [record.level], [record.level],
    Declaration.sealed_toLevel (by decide) (by decide) record.isSealed⟩

/-- A book of maps. -/
def atlas : Descriptor :=
  ⟨Declaration.toLevel ⟨"Atlas", .composite, [.anything "maps"], []⟩ [book.level, record.level],
    [book.level, record.level],
    Declaration.sealed_toLevel (by decide) (by decide) book.isSealed⟩

/-- A book is registered, and an atlas made below it where all types are kept under one digest. Both
have the slots of a record first, and the atlas has all slots of a book where that has them. -/
theorem layout_of_givenOut_atlas :
    ∃ u shelf t after, LocalTypes.register book (.empty 0) = .ok u shelf ∧
      SynthesisCache.synthesize (fun e => (shelf.find? e).isSome) atlas
        ⟨0, fun _ => record.digest, []⟩ = .ok t after ∧ u.InheritsSlots ∧ t.InheritsSlots ∧
      t.slots.map (·.name) = ["id", "label", "pages", "maps"] ∧
      ∀ f ∈ u.slots, t.slotIndex? f.name = u.slotIndex? f.name := by
  have hcollisions : ∀ c ∈ atlas.lineage, ∀ e ∈ atlas.lineage,
      c.digest = e.digest → c.same e = true := by
    decide +kernel
  have hbook : book.Covered {c | c ∈ atlas.lineage} :=
    Descriptor.lineage_subset (by decide +kernel)
  obtain ⟨u, shelf, hregister, hu⟩ := Step.exists_of_succeedsWith
    (show Step.succeedsWith (LocalTypes.register book) (.empty 0)
      (fun u _ => u.descriptor = book) = true by decide +kernel)
  have hshelf : shelf.Reached {c | c ∈ atlas.lineage} :=
    Step.after_of_ok hregister ▸ .register (.empty 0) hbook
  obtain ⟨t, after, hrun, ht⟩ := Step.exists_of_succeedsWith
    (show Step.succeedsWith (SynthesisCache.synthesize
        (fun e => (((LocalTypes.register book).after (.empty 0)).find? e).isSome) atlas)
      ⟨0, fun _ => record.digest, []⟩ (fun t _ => t.descriptor = atlas ∧
        t.slots.map (·.name) = ["id", "label", "pages", "maps"]) = true by decide +kernel)
  rw [Step.after_of_ok hregister] at hrun
  have hbookType := of_decide_eq_true hu
  obtain ⟨hatlasType, hnames⟩ := of_decide_eq_true ht
  obtain ⟨-, -, hbookSlots, -⟩ :=
    layout_of_givenOut hcollisions (.registered (.empty 0) hbook hregister)
  obtain ⟨-, -, hatlasSlots, -⟩ := layout_of_givenOut hcollisions
    (.synthesized (.empty 0 _) (Descriptor.Covered.known fun _ he => he)
      (fun e he => ⟨shelf, hshelf, Option.isSome_iff_exists.mp he⟩) hrun)
  have hslots : t.InheritsSlots := by
    refine hatlasSlots ?_
    rw [kind, hatlasType]
    decide
  have hsubtype : t.SubtypeOf u := by
    refine ⟨book, ?_, hbookType ▸ .refl book⟩
    rw [hatlasType]
    decide +kernel
  refine ⟨u, shelf, t, after, hregister, hrun, hbookSlots ?_, hslots, hnames,
    hslots.slotIndex u hsubtype⟩
  rw [kind, hbookType]
  decide

end RuntimeType

end ObjectEnvelope
