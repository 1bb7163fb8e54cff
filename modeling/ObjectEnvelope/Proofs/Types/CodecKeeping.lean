import ObjectEnvelope.Types.CodecCache

/-!
# Codecs that are kept

A request is answered by the codec that is kept under the key of the type, if it is one of the very
type, and by a new one in its place otherwise (`CodecCache.request_cases`). Types that share a key
take the place from each other, and no others do (`CodecCache.lookup_of_request`). The numbers of
codecs are never given twice, so a codec is told from all others of the same cache by its number
(`CodecCache.Owns`).
-/

namespace ObjectEnvelope

namespace CodecCache

variable {cache after : CodecCache} {t u : RuntimeType} {declared other : ValueType}
  {codec found : Codec} {key : CodecKey} {entries : List (CodecKey × Codec)}

/-! ## The entries -/

theorem lookup_cons_eq_ite (key key' : CodecKey) (codec : Codec) :
    ((key, codec) :: entries).lookup key' =
      if key' = key then some codec else entries.lookup key' := by
  rw [List.lookup_cons]
  by_cases hkey : key' = key
  · simp [hkey]
  · rw [beq_eq_false_iff_ne.mpr hkey, if_neg hkey]

/-- An insertion changes what is found under its key, and nothing else. -/
theorem lookup_insert (key key' : CodecKey) (codec : Codec) (entries : List (CodecKey × Codec)) :
    (insert key codec entries).lookup key' =
      if key' = key then some codec else entries.lookup key' := by
  induction entries with
  | nil => exact lookup_cons_eq_ite key key' codec
  | cons entry rest ih =>
    obtain ⟨first, kept⟩ := entry
    unfold insert
    by_cases hfirst : first = key
    · subst hfirst
      rw [if_pos rfl, lookup_cons_eq_ite, lookup_cons_eq_ite]
      split <;> rfl
    · rw [if_neg hfirst, lookup_cons_eq_ite, lookup_cons_eq_ite, ih]
      by_cases hkey : key' = first
      · subst hkey
        rw [if_pos rfl, if_neg hfirst, if_pos rfl]
      · rw [if_neg hkey, if_neg hkey]

theorem mem_of_lookup (h : entries.lookup key = some codec) : (key, codec) ∈ entries := by
  obtain ⟨before, rest, rfl, -⟩ := List.lookup_eq_some_iff.mp h
  exact List.mem_append.mpr (.inr List.mem_cons_self)

/-! ## Requests -/

theorem make_eq_ok (h : cache.make t declared = .ok (codec, after)) :
    codec.type = t ∧ codec.serial = cache.made ∧ after.made = cache.made + 1 ∧
      after.entries = insert (t.codecKey declared) codec cache.entries := by
  unfold make at h
  split at h
  · cases h
    exact ⟨rfl, rfl, rfl, rfl⟩
  · cases h

/-- A request finds a codec of the very type under its key, or makes a new one and puts it there. -/
theorem request_cases (h : cache.request t declared = .ok (codec, after)) :
    codec.type = t ∧
      ((cache.entries.lookup (t.codecKey declared) = some codec ∧ after = cache) ∨
        ((∀ kept, cache.entries.lookup (t.codecKey declared) = some kept → kept.type ≠ t) ∧
          codec.serial = cache.made ∧ after.made = cache.made + 1 ∧
          after.entries = insert (t.codecKey declared) codec cache.entries)) := by
  unfold request at h
  split at h
  · next kept hlookup =>
    split at h
    · next htype =>
      cases h
      exact ⟨htype, .inl ⟨hlookup, rfl⟩⟩
    · next htype =>
      obtain ⟨htype', hmade⟩ := make_eq_ok h
      refine ⟨htype', .inr ⟨fun kept' hkept => ?_, hmade⟩⟩
      cases hlookup.symm.trans hkept
      exact htype
  · next hlookup =>
    obtain ⟨htype, hmade⟩ := make_eq_ok h
    refine ⟨htype, .inr ⟨fun kept hkept => ?_, hmade⟩⟩
    cases hlookup.symm.trans hkept

/-- A codec of the very type that is kept is given again, and the cache stays as it is. -/
theorem request_of_lookup (h : cache.entries.lookup (t.codecKey declared) = some codec)
    (htype : codec.type = t) : cache.request t declared = .ok (codec, cache) := by
  unfold request
  rw [h]
  exact if_pos htype

/-- The codec that is given is kept. -/
theorem lookup_self_of_request (h : cache.request t declared = .ok (codec, after)) :
    after.entries.lookup (t.codecKey declared) = some codec := by
  rcases request_cases h with ⟨-, ⟨hlookup, rfl⟩ | ⟨-, -, -, hentries⟩⟩
  · exact hlookup
  · rw [hentries, lookup_insert, if_pos rfl]

/-- A codec stays where it is kept unless another type under the same key is asked for. -/
theorem lookup_of_request (h : cache.request u other = .ok (found, after))
    (hkept : cache.entries.lookup (t.codecKey declared) = some codec) (htype : codec.type = t)
    (hother : u.codecKey other = t.codecKey declared → u = t) :
    after.entries.lookup (t.codecKey declared) = some codec := by
  rcases request_cases h with ⟨-, ⟨-, rfl⟩ | ⟨hnone, -, -, hentries⟩⟩
  · exact hkept
  · rw [hentries, lookup_insert]
    by_cases hkey : t.codecKey declared = u.codecKey other
    · -- the request would have found the codec
      have hut := hother hkey.symm
      rw [← hkey] at hnone
      exact absurd (htype.trans hut.symm) (hnone codec hkept)
    · rw [if_neg hkey, hkept]

/-! ## Numbers -/

/-- The number of the codec has been given to it and to no other codec that is kept. -/
structure Owns (cache : CodecCache) (codec : Codec) : Prop where
  lt : codec.serial < cache.made
  eq : ∀ entry ∈ cache.entries, entry.2.serial = codec.serial → entry.2 = codec

/-- Every codec that is kept has its own number. -/
def Numbered (cache : CodecCache) : Prop :=
  ∀ entry ∈ cache.entries, cache.Owns entry.2

/-- A new codec has a number of its own, and takes no other codec its number. -/
theorem Owns.request (howns : cache.Owns codec) (h : cache.request u other = .ok (found, after)) :
    after.Owns codec ∧ (found.serial = codec.serial → found = codec) := by
  rcases request_cases h with ⟨-, ⟨hlookup, rfl⟩ | ⟨-, hserial, hmade, hentries⟩⟩
  · exact ⟨howns, howns.eq _ (mem_of_lookup hlookup)⟩
  · have hlt := howns.lt
    have hfound : found.serial = codec.serial → found = codec := by
      intro heq
      omega
    refine ⟨⟨by omega, ?_⟩, hfound⟩
    rw [hentries]
    exact forall_mem_insert hfound howns.eq

/-- What is given has its own number, if what is kept has. -/
theorem Numbered.owns (hnumbered : cache.Numbered)
    (h : cache.request t declared = .ok (codec, after)) : after.Owns codec := by
  rcases request_cases h with ⟨-, ⟨hlookup, rfl⟩ | ⟨-, hserial, hmade, hentries⟩⟩
  · exact hnumbered _ (mem_of_lookup hlookup)
  · refine ⟨by omega, ?_⟩
    rw [hentries]
    refine forall_mem_insert (fun _ => rfl) fun entry hentry heq => ?_
    have hlt := (hnumbered entry hentry).lt
    omega

theorem Numbered.request (hnumbered : cache.Numbered)
    (h : cache.request t declared = .ok (codec, after)) : after.Numbered := by
  have hnew := hnumbered.owns h
  have hold : ∀ entry ∈ cache.entries, after.Owns entry.2 :=
    fun entry hentry => ((hnumbered entry hentry).request h).1
  unfold Numbered
  rcases request_cases h with ⟨-, ⟨-, rfl⟩ | ⟨-, -, -, hentries⟩⟩
  · exact hnumbered
  · rw [hentries]
    exact forall_mem_insert hnew hold

end CodecCache

end ObjectEnvelope
