import ObjectEnvelope.Proofs.Types.Caches

/-!
# How caches grow

A synthesis adds types at the end of the cache and takes none away, whether it succeeds or fails
(`Grows`). So a type that was returned once is the one that is found ever after: the same structure
gets it again without a change (`synthesize_again`), and another structure under its digest stays
refused. What a single call adds, and what is true of every type that is kept, is stated for the
caches that calls lead to (`synthesize_of_attained`).
-/

namespace ObjectEnvelope

namespace Descriptor

variable {d e : Descriptor}

/-- The chain above a descriptor of a chain is shorter than the chain. -/
theorem length_above_lt_of_mem_ofLevels {levels : List Level} {h : Sealed levels}
    (he : e ∈ ofLevels levels h) : e.above.length < levels.length := by
  induction levels with
  | nil => cases he
  | cons level above ih =>
    rcases List.mem_cons.mp he with rfl | he
    · exact Nat.lt_succ_self _
    · exact Nat.lt_succ_of_lt (ih he)

theorem not_mem_ancestors (d : Descriptor) : d ∉ d.ancestors :=
  fun h => Nat.lt_irrefl _ (length_above_lt_of_mem_ofLevels h)

/-- Unless digests collide, a supertype has another structure. -/
theorem same_eq_false_of_mem_ancestors (hds : CollisionFree {c | c ∈ d.lineage})
    (he : e ∈ d.ancestors) : e.same d = false := by
  have hmem : e ∈ d.lineage := List.mem_cons_of_mem _ he
  rw [Bool.eq_false_iff]
  intro hsame
  have halike : e.Alike d :=
    Covered.alike hds (lineage_subset hmem) (fun _ hc => hc) (digest_eq_of_same hsame)
  have hlength : e.above.length + 1 = d.above.length + 1 := halike.length_eq
  have hlt : e.above.length < d.above.length := length_above_lt_of_mem_ofLevels he
  omega

end Descriptor

namespace SynthesisCache

variable {ds : Set Descriptor} {cache between after : SynthesisCache} {d : Descriptor}
  {t : RuntimeType} {k : Digest} {isLocal : Descriptor → Bool} {e : WireError}

/-! ## Growth -/

/-- Types for some of the descriptors have come to the end of the cache, and none has gone. -/
structure Grows (ds : Set Descriptor) (cache after : SynthesisCache) : Prop where
  key : after.key = cache.key
  types : ∃ made, after.types = cache.types ++ made ∧ ∀ t ∈ made, t.descriptor ∈ ds

theorem Grows.refl (cache : SynthesisCache) : Grows ds cache cache :=
  ⟨rfl, [], (List.append_nil _).symm, by simp⟩

theorem Grows.trans (h : cache.Grows ds between) (h' : between.Grows ds after) :
    cache.Grows ds after := by
  obtain ⟨made, hmade, hmem⟩ := h.types
  obtain ⟨made', hmade', hmem'⟩ := h'.types
  refine ⟨h'.key.trans h.key, made ++ made', ?_, List.forall_mem_append.mpr ⟨hmem, hmem'⟩⟩
  rw [hmade', hmade, List.append_assoc]

theorem Grows.mono {es : Set Descriptor} (h : cache.Grows ds after) (hsubset : ds ⊆ es) :
    cache.Grows es after := by
  obtain ⟨made, hmade, hmem⟩ := h.types
  exact ⟨h.key, made, hmade, fun t ht => hsubset (hmem t ht)⟩

/-- What is kept under a digest stays there. -/
theorem Grows.get?_eq_some (h : cache.Grows ds after) (hget : cache.get? k = some t) :
    after.get? k = some t := by
  obtain ⟨made, hmade, -⟩ := h.types
  unfold get? at hget ⊢
  rw [hmade, List.find?_append, hget, Option.some_or]

/-- What is kept under a digest was there, or has come for one of the descriptors. -/
theorem Grows.get?_cases (h : cache.Grows ds after) (hget : after.get? k = some t) :
    cache.get? k = some t ∨ t.descriptor ∈ ds := by
  obtain ⟨made, hmade, hmem⟩ := h.types
  unfold get? at hget ⊢
  rw [hmade, List.find?_append, Option.or_eq_some_iff] at hget
  exact hget.imp_right fun hnew => hmem t (List.mem_of_find?_eq_some hnew.2)

theorem Grows.holds (h : cache.Grows ds after) (hd : cache.Holds d) : after.Holds d := by
  obtain ⟨t, hget, hsame⟩ := hd
  exact ⟨t, by rw [h.key]; exact h.get?_eq_some hget, hsame⟩

/-! ## Steps -/

/-- The type of a descriptor is the one under its digest afterwards, and the only one that may have
come. -/
theorem of_synthesizeOne (hd : d ∈ ds) (h : synthesizeOne d cache = .ok t after) :
    cache.Grows ds after ∧ after.get? (cache.key d) = some t ∧ t.descriptor.same d = true := by
  rcases synthesizeOne_eq_ok_iff.mp h with ⟨hget, hsame, rfl⟩ | ⟨hget, hcreate, rfl⟩
  · exact ⟨.refl _, hget, hsame⟩
  · obtain ⟨-, -, hdigest, rfl⟩ := RuntimeType.create_eq_ok_iff.mp hcreate
    refine ⟨⟨rfl, [t], rfl, List.forall_mem_singleton.mpr hd⟩, ?_, t.descriptor.same_self⟩
    unfold get? at hget ⊢
    rw [List.find?_append, hget, List.find?_singleton, hdigest, Option.none_or]
    simp

/-- The supertypes that are made stay, and if all of them can be made, all are held. -/
theorem leaves_supertypes {front : List Descriptor} (hfront : ∀ c ∈ front, c ∈ ds) :
    Step.Leaves (front.reverse.forM fun c => discard (synthesizeOne c)) cache
      (fun s => cache.Grows ds s ∧ ∀ c ∈ front, s.Holds c) (cache.Grows ds) := by
  refine Step.leaves_reverse_forM
    (fun (made : List Descriptor) s => cache.Grows ds s ∧ ∀ c ∈ made, s.Holds c)
    (fun before c made hsplit s hs => ⟨fun t s' hrun => ?_, fun f s' hrun => ?_⟩) ⟨.refl _, by simp⟩
  · have hc : c ∈ ds := hfront c (hsplit ▸ List.mem_append.mpr (.inr List.mem_cons_self))
    obtain ⟨hgrows, hget, hsame⟩ := of_synthesizeOne hc hrun
    have hheld : s'.Holds c := ⟨t, by rw [hgrows.key]; exact hget, hsame⟩
    refine ⟨hs.1.trans hgrows, ?_⟩
    exact List.forall_mem_cons.mpr ⟨hheld, fun b hb => hgrows.holds (hs.2 b hb)⟩
  · rw [(synthesizeOne_eq_error_iff.mp hrun).1]
    exact hs.1

/-- A successful synthesis adds types for the descriptor and its supertypes only. It leaves the type
under the digest of the descriptor, and the nearest supertype known or held. -/
theorem of_synthesize (h : synthesize isLocal d cache = .ok t after) :
    cache.Grows {c | c ∈ d.lineage} after ∧ after.get? (cache.key d) = some t ∧
      t.descriptor.same d = true ∧
      ∀ p, d.parent? = some p → isLocal p = true ∨ after.Holds p := by
  obtain ⟨front, between, hmissing, hloop, hone⟩ := synthesize_eq_ok_iff.mp h
  have hfront : ∀ c ∈ front, c ∈ {c | c ∈ d.lineage} :=
    fun c hc => List.mem_cons_of_mem _ (mem_of_missing hmissing c hc)
  obtain ⟨hgrows, hheld⟩ := (leaves_supertypes hfront).1 _ _ hloop
  have hd : d ∈ {c | c ∈ d.lineage} := d.mem_lineage_self
  obtain ⟨hself, hget, hsame⟩ := of_synthesizeOne hd hone
  have hafter := hgrows.trans hself
  refine ⟨hafter, by rw [← hgrows.key]; exact hget, hsame, fun p hp => ?_⟩
  rcases mem_missing_of_parent? hmissing hp with hlocal | hp | hp
  · exact .inl hlocal
  · exact .inr (hafter.holds hp)
  · exact .inr (hself.holds (hheld p hp))

/-- A failed synthesis adds types for supertypes only. -/
theorem of_synthesize_error (h : synthesize isLocal d cache = .error e after) :
    cache.Grows {c | c ∈ d.ancestors} after := by
  rcases synthesize_eq_error_iff.mp h with ⟨-, rfl⟩ | ⟨front, hmissing, hrest⟩
  · exact .refl _
  · have hfront : ∀ c ∈ front, c ∈ {c | c ∈ d.ancestors} := mem_of_missing hmissing
    rcases hrest with hloop | ⟨between, hloop, hone⟩
    · exact (leaves_supertypes hfront).2 e after hloop
    · rw [(synthesizeOne_eq_error_iff.mp hone).1]
      exact ((leaves_supertypes hfront).1 _ _ hloop).1

/-! ## Later caches -/

/-- The caches that further syntheses lead to, failed ones included. -/
inductive LeadsTo (cache : SynthesisCache) : SynthesisCache → Prop
  | refl : LeadsTo cache cache
  | synthesize {between : SynthesisCache} (isLocal : Descriptor → Bool) (d : Descriptor)
      (h : LeadsTo cache between) : LeadsTo cache ((synthesize isLocal d).after between)

theorem grows_synthesize (isLocal : Descriptor → Bool) (d : Descriptor) (cache : SynthesisCache) :
    cache.Grows Set.univ ((synthesize isLocal d).after cache) := by
  cases hrun : synthesize isLocal d cache with
  | ok t after =>
    rw [Step.after_of_ok hrun]
    exact (of_synthesize hrun).1.mono (Set.subset_univ _)
  | error e after =>
    rw [Step.after_of_error hrun]
    exact (of_synthesize_error hrun).mono (Set.subset_univ _)

theorem preserves_grows (isLocal : Descriptor → Bool) (d : Descriptor) :
    (synthesize isLocal d).Preserves (cache.Grows Set.univ) := by
  intro between h
  have hafter := h.trans (grows_synthesize isLocal d between)
  exact ⟨fun t after hrun => Step.after_of_ok hrun ▸ hafter,
    fun e after hrun => Step.after_of_error hrun ▸ hafter⟩

theorem LeadsTo.grows (h : cache.LeadsTo after) : cache.Grows Set.univ after := by
  induction h with
  | refl => exact .refl _
  | synthesize isLocal d _ ih => exact (preserves_grows isLocal d).after ih

/-- Nothing is missing above a descriptor if the nearest supertype of one of the same structure is
held, or is local there. -/
theorem missing_eq_nil_of_same {d' : Descriptor} {isLocal' : Descriptor → Bool}
    (hkey : ∀ a b : Descriptor, a.same b = true → cache.key a = cache.key b)
    (hsame : d.same d' = true) (hds : CollisionFree {c | c ∈ d.lineage ∨ c ∈ d'.lineage})
    (hsupertype : ∀ p, d.parent? = some p → isLocal p = true ∨ cache.Holds p)
    (hlookup : ∀ p p', d.parent? = some p → d'.parent? = some p' → isLocal p = true →
      isLocal' p' = true) : cache.missing isLocal' d'.ancestors = .ok [] := by
  refine missing_eq_nil_of_holds fun p' hp' => ?_
  obtain ⟨p, hp, hdigest⟩ :=
    Descriptor.exists_parent?_of_head? (Descriptor.same_iff.mp hsame).2.symm hp'
  have hpp' : p.same p' = true :=
    hds p (.inl (Descriptor.mem_lineage_of_parent? hp)) p'
      (.inr (Descriptor.mem_lineage_of_parent? hp')) hdigest.symm
  rcases hsupertype p hp with hlocal | ⟨u, hu, hup⟩
  · exact .inl (hlookup p p' hp hp' hlocal)
  · exact .inr ⟨u, hkey p p' hpp' ▸ hu, Descriptor.same_trans hup hpp'⟩

/-- A structure whose digest is taken by another is refused, and the other stays. -/
theorem synthesize_refused (hget : cache.get? (cache.key d) = some t)
    (hdiffers : t.descriptor.same d = false) :
    ∃ e final, synthesize isLocal d cache = .error e final ∧ e.kind = .synthesisFailure ∧
      final.get? (cache.key d) = some t := by
  cases hrun : synthesize isLocal d cache with
  | error e final =>
    exact ⟨e, final, rfl, synthesize_fails isLocal d _ _ _ hrun,
      (of_synthesize_error hrun).get?_eq_some hget⟩
  | ok u final =>
    -- the type under the digest would have both structures
    obtain ⟨hgrows, hget', hsame, -⟩ := of_synthesize hrun
    rw [hgrows.get?_eq_some hget] at hget'
    cases hget'
    rw [hdiffers] at hsame
    cases hsame

/-- **Synthesis is idempotent, and collisions stay fatal.** Once a descriptor has a type, then after
any syntheses a descriptor of the same structure gets the same type again and the cache stays as it
is, if the lookup finds the nearest supertype where the first one did; whether it finds others does
not matter. A descriptor of another structure under the same digest is refused ever after, and the
type stays. -/
theorem synthesize_again {later : SynthesisCache}
    (hkey : ∀ a b : Descriptor, a.same b = true → cache.key a = cache.key b)
    (hrun : synthesize isLocal d cache = .ok t after) (hlater : after.LeadsTo later) :
    (∀ d' isLocal', d.same d' = true → CollisionFree {c | c ∈ d.lineage ∨ c ∈ d'.lineage} →
      (∀ p p', d.parent? = some p → d'.parent? = some p' → isLocal p = true →
        isLocal' p' = true) →
      synthesize isLocal' d' later = .ok t later) ∧
    ∀ d' isLocal', cache.key d = cache.key d' → d.same d' = false →
      ∃ e final, synthesize isLocal' d' later = .error e final ∧ e.kind = .synthesisFailure ∧
        final.get? (cache.key d) = some t := by
  obtain ⟨hgrows, hget, hsame, hsupertype⟩ := of_synthesize hrun
  have hsince := hlater.grows
  have hlaterKey : later.key = cache.key := hsince.key.trans hgrows.key
  have hkept : later.get? (later.key d) = some t := by
    rw [hlaterKey]
    exact hsince.get?_eq_some hget
  rw [← hlaterKey] at hkey ⊢
  constructor
  · intro d' isLocal' hd' hds hlookup
    rw [synthesize_of_missing (missing_eq_nil_of_same hkey hd' hds
      (fun p hp => (hsupertype p hp).imp_right hsince.holds) hlookup)]
    refine synthesizeOne_eq_ok_iff.mpr (.inl ⟨?_, Descriptor.same_trans hsame hd', rfl⟩)
    rw [← hkey d d' hd']
    exact hkept
  · intro d' isLocal' hdigest hdiffers
    rw [hdigest] at hkept ⊢
    refine synthesize_refused hkept ?_
    rw [Bool.eq_false_iff] at hdiffers ⊢
    exact fun hboth => hdiffers (Descriptor.same_trans (Descriptor.same_symm hsame) hboth)

/-- What buttons have in common with other parts of a window. -/
def widget : Descriptor :=
  ⟨Declaration.toLevel ⟨"Widget", .composite, [.mandatory "id" (.primitive (.scalar .u32))], []⟩
    [], [], Declaration.sealed_toLevel (by decide) (by decide) trivial⟩

/-- A widget that can be pressed. -/
def button : Descriptor :=
  ⟨Declaration.toLevel ⟨"Button", .composite, [], ["Pressable"]⟩ [widget.level], [widget.level],
    Declaration.sealed_toLevel (by decide) (by decide) widget.isSealed⟩

/-- The cache without types that keeps every descriptor under one digest. -/
def crowded : SynthesisCache := ⟨0, fun _ => widget.digest, []⟩

/-- A button that was made where widgets are local gets its type again, by a lookup that finds more,
after a widget was refused for want of another digest; and widgets go on to be refused. -/
theorem synthesize_again_button :
    ∃ t after later, synthesize (·.name == "Widget") button crowded = .ok t after ∧
      (synthesize (fun _ => false) widget).after after = later ∧
      synthesize (fun _ => true) button later = .ok t later ∧
      ∃ e final, synthesize (fun _ => false) widget later = .error e final ∧
        e.kind = .synthesisFailure ∧ final.get? widget.digest = some t := by
  obtain ⟨t, after, hrun⟩ := Step.exists_of_succeeds
    (show Step.succeeds (synthesize (·.name == "Widget") button) crowded = true by decide +kernel)
  have hcollisions : ∀ c ∈ button.lineage, ∀ e ∈ button.lineage,
      c.digest = e.digest → c.same e = true := by
    decide +kernel
  have hds : CollisionFree {c | c ∈ button.lineage ∨ c ∈ button.lineage} :=
    fun c hc e he => hcollisions c (or_self_iff.mp hc) e (or_self_iff.mp he)
  obtain ⟨hagain, hrefused⟩ :=
    synthesize_again (fun _ _ _ => rfl) hrun (.synthesize (fun _ => false) widget .refl)
  exact ⟨t, after, _, hrun, rfl,
    hagain button (fun _ => true) button.same_self hds fun _ _ _ _ _ => rfl,
    hrefused widget (fun _ => false) rfl (by decide)⟩

/-! ## What is kept -/

/-- What holds of the type that is kept under a digest. -/
structure Entry (cache : SynthesisCache) (k : Digest) (t : RuntimeType) : Prop where
  origin : t.origin = .synthesized
  digest : t.digest = k
  key : cache.key t.descriptor = k
  /-- The slots, the constants and the assignable names are those of the descriptor. -/
  layout : t.layout = t.descriptor.layout
  admissible : t.descriptor.layoutFault? = none

theorem Indexed.entry (h : cache.Indexed) (hget : cache.get? k = some t) : cache.Entry k t := by
  have hmem : t ∈ cache.types := List.mem_of_find?_eq_some hget
  have hdigest : t.digest = k := by simpa using List.find?_some hget
  exact ⟨h.origin t hmem, hdigest, (h.digest t hmem).symm.trans hdigest, t.layout_eq,
    t.admissible⟩

/-- **What syntheses leave in the cache.** Every type of a cache that syntheses lead to is kept, for
good, under the digest of its descriptor. A successful call returns the type kept under the digest
of its descriptor, which has that structure, and adds types for the descriptor and its supertypes
only; a failed call adds types for proper supertypes only. -/
theorem synthesize_of_attained (h : cache.Attained) :
    (∀ k t, cache.get? k = some t → cache.Entry k t) ∧
    (∀ t ∈ cache.types, cache.get? t.digest = some t) ∧
    (∀ later, cache.LeadsTo later → ∀ k t, cache.get? k = some t → later.get? k = some t) ∧
    ∀ isLocal d,
      (∀ t after, synthesize isLocal d cache = .ok t after →
        after.get? (cache.key d) = some t ∧ t.descriptor.same d = true ∧
          ∀ k u, after.get? k = some u → cache.get? k = some u ∨ u.descriptor ∈ d.lineage) ∧
      ∀ e after, synthesize isLocal d cache = .error e after →
        ∀ k u, after.get? k = some u → cache.get? k = some u ∨
          (u.descriptor ∈ d.ancestors ∧ u.descriptor ≠ d ∧
            (CollisionFree {c | c ∈ d.lineage} → u.descriptor.same d = false)) := by
  refine ⟨fun k t => h.indexed.entry, fun t ht => find?_key_eq h.indexed.nodup ht,
    fun later hlater k t => hlater.grows.get?_eq_some, fun isLocal d =>
    ⟨fun t after hrun => ?_, fun e after hrun k u hget => ?_⟩⟩
  · obtain ⟨hgrows, hget, hsame, -⟩ := of_synthesize hrun
    exact ⟨hget, hsame, fun k u => hgrows.get?_cases⟩
  · refine ((of_synthesize_error hrun).get?_cases hget).imp_right fun hmem => ?_
    refine ⟨hmem, ?_, fun hds => Descriptor.same_eq_false_of_mem_ancestors hds hmem⟩
    rintro rfl
    exact u.descriptor.not_mem_ancestors hmem

/-- Where all descriptors are kept under one digest, a button is refused once its supertype has been
made for it. The supertype stays, and is returned when it is asked for. -/
theorem synthesize_of_attained_widget :
    ∃ e after, synthesize (fun _ => false) button crowded = .error e after ∧
      (∀ k u, after.get? k = some u → crowded.get? k = some u ∨
        (u.descriptor ∈ button.ancestors ∧ u.descriptor ≠ button ∧
          (CollisionFree {c | c ∈ button.lineage} → u.descriptor.same button = false))) ∧
      ∃ t final, synthesize (fun _ => false) widget after = .ok t final ∧
        final.get? widget.digest = some t ∧ t.descriptor.same widget = true ∧
        final.Entry widget.digest t := by
  obtain ⟨-, -, -, hcalls⟩ := synthesize_of_attained (.empty 0 fun _ => widget.digest)
  obtain ⟨e, after, hrefused, -⟩ := Step.exists_of_failure?
    (show Step.failure? (synthesize (fun _ => false) button) crowded = some .synthesisFailure by
      decide +kernel)
  have hafter : after.Attained := by
    rw [← Step.after_of_error hrefused]
    exact .synthesize _ _ (.empty 0 fun _ => widget.digest)
  have hkey : after.key = crowded.key := (of_synthesize_error hrefused).key
  obtain ⟨t, final, hrun⟩ : ∃ t final, synthesize (fun _ => false) widget after = .ok t final := by
    rw [← Step.after_of_error hrefused]
    exact Step.exists_of_succeeds (by decide +kernel)
  obtain ⟨-, -, -, hcalls'⟩ := synthesize_of_attained hafter
  obtain ⟨hget, hsame, -⟩ := (hcalls' (fun _ => false) widget).1 t final hrun
  rw [hkey] at hget
  have hfinal : final.Attained := by
    rw [← Step.after_of_ok hrun]
    exact .synthesize _ _ hafter
  obtain ⟨hentry, -⟩ := synthesize_of_attained hfinal
  exact ⟨e, after, hrefused, (hcalls (fun _ => false) button).2 e after hrefused, t, final, hrun,
    hget, hsame, hentry _ t hget⟩

end SynthesisCache

end ObjectEnvelope
