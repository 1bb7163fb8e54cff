import ObjectEnvelope.Proofs.Graph.Updates
import ObjectEnvelope.Proofs.Payload.DecoderSteps
import ObjectEnvelope.Proofs.Payload.Recording

/-!
# Back-references

The numbers of a decoding follow the order in which bodies become complete, its handles the order
in which objects are added, inline objects among them. What ties the two together is the history of
the decoding: where a back-reference is met, the objects that have a number are those whose bodies
became complete before, in that order, and whatever becomes complete later is new to the graph
(`Decoding.Meets`). Every step of a recorded decoding keeps this for all back-references so far, and
stops at the first one that names nothing (`Record.Leads`); `Decoder.meets_of_log` says it of whole
payloads.
-/

namespace ObjectEnvelope

open Event (bodies objects)
open Step (FailsWith Preserves bind_eq_ok_iff bind_eq_error_iff)

/-- The decoding, after some events and before others, has numbered the objects whose bodies became
complete, which are in the graph; objects that become complete later are not. -/
structure Decoding.Meets (s : Decoding) (before after : List Event) : Prop where
  numbered : s.numbered.toList = bodies before
  named : ∀ h ∈ s.numbered, h.index < s.graph.size
  later : ∀ h ∈ objects after, s.graph.size ≤ h.index

/-- The back-reference at which the decoding stands names an object. -/
def Decoding.Resolves (s : Decoding) : Prop :=
  ∃ h t, Decode.referent s = .ok h t

namespace Decode

variable {s : Decoding} {id : Nat} {r : Reader}

theorem referent_eq_ok (hid : Read.number 4 s.reader = .ok id r) {h : Handle}
    (hget : s.numbered[id]? = some h) : referent s = .ok h { s with reader := r } :=
  referent_eq_ok_iff.mpr ⟨id, r, hid, hget, rfl⟩

theorem referent_eq_error (hid : Read.number 4 s.reader = .ok id r)
    (hget : s.numbered[id]? = none) :
    referent s =
      .error (.referenceIntegrityViolation id s.numbered.size) { s with reader := r } := by
  unfold referent
  refine bind_eq_error_iff.mpr (.inr ⟨id, _, read_eq_ok_iff.mpr ⟨r, hid, rfl⟩, ?_⟩)
  refine bind_eq_error_iff.mpr (.inr ⟨_, _, Step.get_eq_ok_iff.mpr ⟨rfl, rfl⟩, ?_⟩)
  simp only [hget]
  exact Step.throw_eq_error_iff.mpr ⟨rfl, rfl⟩

theorem state_of_instantiate_eq_error {type : RuntimeType} {values : List Value} {e : WireError}
    {t : Decoding} (h : instantiate type values s = .error e t) : s = t := by
  simp only [instantiate, bind_eq_error_iff, Step.get_ne_error, Step.get_eq_ok_iff,
    Step.ofExcept_eq_error_iff, Step.set_ne_error, Step.pure_ne_error, false_or, and_false,
    exists_false, or_false] at h
  obtain ⟨_, _, ⟨rfl, rfl⟩, -, rfl⟩ := h
  rfl

/-! ## Steps that add nothing -/

/-- The step neither adds an object nor gives one a number, whether it succeeds or fails. -/
def Still {α : Type} (step : Decode α) : Prop :=
  ∀ graph numbered, Preserves (fun s : Decoding => s.graph = graph ∧ s.numbered = numbered) step

theorem still_read {α : Type} (step : Read α) : Still (read step) :=
  fun _ _ => .on_any fun _ _ h => h

theorem still_codec (t : RuntimeType) : Still (codec t) :=
  fun _ _ => .on_any fun _ _ h => h

theorem still_tag : Still Decode.tag := by
  refine fun g n => .bind .get fun s => .bind (still_read _ g n) fun code => ?_
  split
  · exact .pure _
  · exact .throw _

theorem still_referent : Still referent := by
  refine fun g n => .bind (still_read _ g n) fun id => .bind .get fun s => ?_
  split
  · exact .pure _
  · exact .throw _

theorem still_readType (d : Decoder) (declared : ValueType) : Still (d.readType declared) := by
  refine fun g n => .bind (still_read _ g n) fun index => ?_
  split
  · exact .throw _
  · split
    · exact .pure _
    · exact .throw _

theorem still_readOrdinal (type : RuntimeType) : Still (Decoder.readOrdinal type) := by
  refine fun g n => .bind (still_read _ g n) fun ordinal => ?_
  split
  · exact .pure _
  · exact .throw _

end Decode

namespace Recording

/-- The numbers and the back-references so far are what the history of the decoding makes them. -/
structure Sound (r : Recording) : Prop where
  numbered : r.decoding.numbered.toList = bodies r.log
  named : ∀ h ∈ r.decoding.numbered, h.index < r.decoding.graph.size
  size_le : ∀ s, .reference s ∈ r.log → s.graph.size ≤ r.decoding.graph.size
  meets : ∀ before s after, r.log = before ++ .reference s :: after → s.Meets before after

/-- A sound recording in which every back-reference names an object. -/
structure Settled (r : Recording) : Prop extends Sound r where
  resolves : ∀ s, .reference s ∈ r.log → s.Resolves

/-- A sound recording of a decoding that ended with an error. If a back-reference names no object,
nothing comes after it, and the error is its own. -/
structure Stopped (e : WireError) (r : Recording) : Prop extends Sound r where
  resolves : ∀ before s after, r.log = before ++ .reference s :: after →
    s.Resolves ∨ (after = [] ∧ ∃ t, Decode.referent s = .error e t)

/-- The value is no object, or one of the graph that is newer than all back-references. -/
def Fresh (v : Value) (r : Recording) : Prop :=
  ∀ h, v = .object h → h.index < r.decoding.graph.size ∧
    ∀ s, .reference s ∈ r.log → s.graph.size ≤ h.index

variable {r t : Recording} {e : WireError} {h : Handle}

theorem settled_start (payload : List UInt8) (codecs : CodecCache) :
    Settled ⟨⟨Progress.start payload, codecs⟩, []⟩ := by
  refine ⟨⟨rfl, by simp [Progress.start], by simp, fun before s after hsplit => ?_⟩, by simp⟩
  simp at hsplit

theorem Settled.stopped (hr : r.Settled) (e : WireError) : r.Stopped e := by
  refine ⟨hr.toSound, fun before s after hlog => .inl (hr.resolves s ?_)⟩
  exact hlog ▸ List.mem_append_cons_self

/-- What happens last stands at the end of the log, or ends what comes after. -/
theorem append_singleton_cases {α : Type} {log before after : List α} {a b : α}
    (h : log ++ [a] = before ++ b :: after) :
    (after = [] ∧ a = b ∧ log = before) ∨
      ∃ rest, after = rest ++ [a] ∧ log = before ++ b :: rest := by
  rcases after.eq_nil_or_concat with rfl | ⟨rest, last, rfl⟩
  · obtain ⟨hlog, hlast⟩ := List.append_inj' h rfl
    exact .inl ⟨rfl, List.singleton_inj.mp hlast, hlog⟩
  · rw [List.concat_eq_append, ← List.cons_append, ← List.append_assoc] at h
    obtain ⟨hlog, hlast⟩ := List.append_inj' h rfl
    rw [List.concat_eq_append, ← hlast]
    exact .inr ⟨rest, rfl, hlog⟩

/-- Where neither objects nor numbers change and nothing is recorded, nothing changes. -/
theorem Sound.still (hr : r.Sound) (hlog : t.log = r.log)
    (hgraph : t.decoding.graph = r.decoding.graph)
    (hnumbered : t.decoding.numbered = r.decoding.numbered) : t.Sound := by
  constructor
  · rw [hnumbered, hlog, hr.numbered]
  · rw [hnumbered, hgraph]
    exact hr.named
  · rw [hlog, hgraph]
    exact hr.size_le
  · rw [hlog]
    exact hr.meets

theorem Settled.still (hr : r.Settled) (hlog : t.log = r.log)
    (hgraph : t.decoding.graph = r.decoding.graph)
    (hnumbered : t.decoding.numbered = r.decoding.numbered) : t.Settled :=
  ⟨hr.toSound.still hlog hgraph hnumbered, hlog ▸ hr.resolves⟩

/-- Another object, which nobody has numbered yet. -/
theorem Settled.grow (hr : r.Settled) {graph : ObjectGraph}
    (hsize : r.decoding.graph.size ≤ graph.size) :
    Settled { r with decoding := { r.decoding with graph } } :=
  ⟨⟨hr.numbered, fun h hh => Nat.lt_of_lt_of_le (hr.named h hh) hsize,
    fun s hs => Nat.le_trans (hr.size_le s hs) hsize, hr.meets⟩, hr.resolves⟩

/-- A new object becomes complete, and has the next number if its body is no inline one. -/
theorem Settled.complete (event : Event) {numbered : Array Handle} (hr : r.Settled)
    (hobject : event.object? = some h) (hfresh : Fresh (.object h) r)
    (hnumbered : numbered.toList = r.decoding.numbered.toList ++ bodies [event]) :
    Settled ⟨{ r.decoding with numbered }, r.log ++ [event]⟩ := by
  obtain ⟨hlt, hnew⟩ := hfresh h rfl
  have hmem : ∀ s, .reference s ∈ r.log ++ [event] → .reference s ∈ r.log := by
    intro s hs
    rcases List.mem_append.mp hs with hs | hs
    · exact hs
    · rw [← List.mem_singleton.mp hs] at hobject
      cases hobject
  have hobjects : ∀ k ∈ objects [event], k = h := by simp [hobject]
  constructor
  · constructor
    · rw [hnumbered, hr.numbered, Event.bodies_append]
    · intro k hk
      rw [← Array.mem_toList_iff, hnumbered, List.mem_append, Array.mem_toList_iff] at hk
      rcases hk with hk | hk
      · exact hr.named k hk
      · rw [hobjects k (Event.mem_objects_of_mem_bodies hk)]
        exact hlt
    · exact fun s hs => hr.size_le s (hmem s hs)
    · intro before s after hsplit
      rcases append_singleton_cases hsplit with ⟨-, rfl, -⟩ | ⟨rest, rfl, hlog⟩
      · cases hobject
      · obtain ⟨hn, hnamed, hlater⟩ := hr.meets before s rest hlog
        refine ⟨hn, hnamed, fun k hk => ?_⟩
        rw [Event.objects_append, List.mem_append] at hk
        rcases hk with hk | hk
        · exact hlater k hk
        · -- the graph had not grown as far as the new object when the back-reference was met
          rw [hobjects k hk]
          exact hnew s (hlog ▸ List.mem_append_cons_self)
  · exact fun s hs => hr.resolves s (hmem s hs)

/-- A back-reference is met. -/
theorem Sound.meet (hr : r.Sound) : Sound { r with log := r.log ++ [.reference r.decoding] } := by
  constructor
  · simp [hr.numbered, Event.body?]
  · exact hr.named
  · intro s hs
    rcases List.mem_append.mp hs with hs | hs
    · exact hr.size_le s hs
    · cases List.mem_singleton.mp hs
      exact Nat.le_refl _
  · intro before s after hsplit
    rcases append_singleton_cases hsplit with ⟨rfl, heq, rfl⟩ | ⟨rest, rfl, hlog⟩
    · cases heq
      exact ⟨hr.numbered, hr.named, by simp [objects]⟩
    · obtain ⟨hn, hnamed, hlater⟩ := hr.meets before s rest hlog
      exact ⟨hn, hnamed, by simpa [Event.object?] using hlater⟩

theorem Settled.meet (hr : r.Settled) (hresolves : r.decoding.Resolves) :
    Settled { r with log := r.log ++ [.reference r.decoding] } := by
  refine ⟨hr.toSound.meet, fun s hs => ?_⟩
  rcases List.mem_append.mp hs with hs | hs
  · exact hr.resolves s hs
  · cases List.mem_singleton.mp hs
    exact hresolves

/-- The decoding ends where a back-reference names no object. -/
theorem Settled.stop (hr : r.Settled) {u : Decoding}
    (hrun : Decode.referent r.decoding = .error e u) :
    Stopped e ⟨u, r.log ++ [.reference r.decoding]⟩ := by
  obtain ⟨hgraph, hnumbered⟩ := (Decode.still_referent _ _ r.decoding ⟨rfl, rfl⟩).2 e u hrun
  refine ⟨hr.toSound.meet.still rfl hgraph hnumbered, fun before s after hsplit => ?_⟩
  rcases append_singleton_cases hsplit with ⟨rfl, heq, -⟩ | ⟨rest, rfl, hlog⟩
  · cases heq
    exact .inr ⟨rfl, u, hrun⟩
  · exact .inl (hr.resolves s (hlog ▸ List.mem_append_cons_self))

end Recording

namespace Record

open Recording (Stopped Fresh)

variable {α β : Type} {r : Recording} {step : Record α} {post : α → Recording → Prop}

/-- The step leads from the recording to a settled one, and to a result that belongs to it, or it
stops with an error. -/
def Leads (step : Record α) (r : Recording) (post : α → Recording → Prop) : Prop :=
  (∀ a t, step r = .ok a t → t.Settled ∧ post a t) ∧ FailsWith step r Stopped

theorem Leads.mono {post' : α → Recording → Prop} (h : Leads step r post)
    (himp : ∀ a t, post a t → post' a t) : Leads step r post' :=
  ⟨fun a t hrun => ⟨(h.1 a t hrun).1, himp a t (h.1 a t hrun).2⟩, h.2⟩

theorem leads_pure {a : α} (hr : r.Settled) (ha : post a r) : Leads (pure a) r post := by
  refine ⟨fun b t hrun => ?_, fun e t hrun => absurd hrun Step.pure_ne_error⟩
  obtain ⟨rfl, rfl⟩ := Step.pure_eq_ok_iff.mp hrun
  exact ⟨hr, ha⟩

theorem leads_throw {e : WireError} (hr : r.Settled) : Leads (throw e : Record α) r post := by
  refine ⟨fun a t hrun => absurd hrun Step.throw_ne_ok, fun f t hrun => ?_⟩
  obtain ⟨-, rfl⟩ := Step.throw_eq_error_iff.mp hrun
  exact hr.stopped f

theorem Leads.bind {next : α → Record β} {post' : β → Recording → Prop} (h : Leads step r post)
    (hnext : ∀ a t, t.Settled → post a t → Leads (next a) t post') :
    Leads (step >>= next) r post' := by
  constructor
  · intro b u hrun
    obtain ⟨a, t, hstep, hrest⟩ := bind_eq_ok_iff.mp hrun
    obtain ⟨ht, ha⟩ := h.1 a t hstep
    exact (hnext a t ht ha).1 b u hrest
  · refine .bind h.2 fun a t hstep => ?_
    obtain ⟨ht, ha⟩ := h.1 a t hstep
    exact (hnext a t ht ha).2

theorem Leads.guard {c : Prop} [Decidable c] {e : WireError} {next : PUnit → Record α}
    (hr : r.Settled) (hnext : Leads (next ⟨⟩) r post) :
    Leads (if c then (MonadExcept.throw e : Record PUnit) >>= next else next ⟨⟩) r post := by
  refine ⟨fun a t hrun => ?_, .guard (hr.stopped e) fun _ => hnext.2⟩
  exact hnext.1 a t (Step.guard_eq_ok_iff.mp hrun).2

theorem leads_each {step : α → Record β} (hr : r.Settled)
    (h : ∀ a t, t.Settled → Leads (step a) t fun _ _ => True) (items : List α) :
    Leads (Step.each step items) r fun _ _ => True := by
  induction items generalizing r with
  | nil => exact leads_pure hr trivial
  | cons a rest ih =>
    refine (h a r hr).bind fun b t ht _ => (ih ht).bind fun bs u hu _ => ?_
    exact leads_pure hu trivial

/-- A step of the decoder that adds nothing. -/
theorem leads_still {plain : Decode α} (h : Decode.Still plain) (hr : r.Settled) :
    Leads (silently plain) r fun a t => plain r.decoding = .ok a t.decoding := by
  obtain ⟨hok, herror⟩ := h r.decoding.graph r.decoding.numbered r.decoding ⟨rfl, rfl⟩
  constructor
  · intro a t hrun
    obtain ⟨s, hstep, rfl⟩ := Step.on_eq_ok_iff.mp hrun
    obtain ⟨hgraph, hnumbered⟩ := hok a s hstep
    exact ⟨hr.still (t := ⟨s, r.log⟩) rfl hgraph hnumbered, hstep⟩
  · intro e t hrun
    obtain ⟨s, hstep, rfl⟩ := Step.on_eq_error_iff.mp hrun
    obtain ⟨hgraph, hnumbered⟩ := herror e s hstep
    exact (hr.still (t := ⟨s, r.log⟩) rfl hgraph hnumbered).stopped e

theorem leads_instantiate {type : RuntimeType} {values : List Value} (hr : r.Settled) :
    Leads (silently (Decode.instantiate type values)) r fun h t => Fresh (.object h) t := by
  constructor
  · intro h t hrun
    obtain ⟨s, hstep, rfl⟩ := Step.on_eq_ok_iff.mp hrun
    obtain ⟨graph, hnew, rfl⟩ := Decode.instantiate_eq_ok_iff.mp hstep
    obtain ⟨-, -, -, -, rfl, rfl⟩ := ObjectGraph.instantiate_eq_ok_iff.mp hnew
    have hgrown : r.decoding.graph.size <
        (ObjectGraph.mk (r.decoding.graph.objects.push ⟨type, values⟩)).size := by
      simp [ObjectGraph.size]
    refine ⟨hr.grow (Nat.le_of_lt hgrown), fun k hk => ?_⟩
    cases hk
    exact ⟨hgrown, hr.size_le⟩
  · intro e t hrun
    obtain ⟨s, hstep, rfl⟩ := Step.on_eq_error_iff.mp hrun
    obtain rfl := Decode.state_of_instantiate_eq_error hstep
    exact hr.stopped e

/-- The object that was read becomes complete. -/
theorem Leads.finishing {step : Record Value} {finish : Handle → Record PUnit}
    (h : Leads step r Fresh)
    (hfinish : ∀ k t, t.Settled → Fresh (.object k) t → Leads (finish k) t fun _ _ => True) :
    Leads (finishing finish step) r fun _ _ => True := by
  refine h.bind fun v t ht hfresh => ?_
  cases v with
  | object k => exact (hfinish k t ht hfresh).bind fun _ u hu _ => leads_pure hu trivial
  | _ => exact leads_pure ht trivial

theorem leads_number {h : Handle} (hr : r.Settled) (hfresh : Fresh (.object h) r) :
    Leads (number h) r fun _ _ => True := by
  refine ⟨fun a t hrun => ⟨?_, trivial⟩, fun e t hrun => nomatch hrun⟩
  cases hrun
  exact hr.complete (.body h) rfl hfresh (by simp [Event.body?])

theorem leads_complete {h : Handle} (hr : r.Settled) (hfresh : Fresh (.object h) r) :
    Leads (complete h) r fun _ _ => True := by
  refine ⟨fun a t hrun => ⟨?_, trivial⟩, fun e t hrun => nomatch hrun⟩
  cases hrun
  exact hr.complete (.inlineBody h) rfl hfresh (by simp [Event.body?])

end Record

namespace Decoder

open Record (Leads silently leads_pure leads_throw leads_still)
open Recording (Fresh)

variable {d : Decoder} {slot : ValueType → Record Value} {r : Recording}

/-- The body of a value, read by the codec that its type has. -/
theorem recordBody_leads
    (hslot : ∀ declared r, r.Settled → Leads (slot declared) r fun _ _ => True) (hr : r.Settled)
    (type : RuntimeType) (form : BodyForm) : Leads (recordBody slot type form) r Fresh := by
  cases form with
  | ordinal =>
    refine (leads_still (Decode.still_readOrdinal type) hr).mono fun v t hrun h hh => ?_
    obtain ⟨_, _, c, -, -, -, -, hv, -⟩ := readOrdinal_eq_ok_iff.mp hrun
    cases hv.symm.trans hh
  | slots =>
    refine (leads_still (Decode.still_read _) hr).bind fun count t ht _ => .guard ht ?_
    refine (Record.leads_each ht (fun f : Field => hslot f.type) _).bind fun values u hu _ => ?_
    exact (Record.leads_instantiate hu).bind fun h w hw hfresh => leads_pure hw hfresh

theorem recordCodec_leads
    (hslot : ∀ declared r, r.Settled → Leads (slot declared) r fun _ _ => True) (hr : r.Settled)
    (type : RuntimeType) :
    Leads (do
      let codec ← silently (Decode.codec type)
      recordBody slot codec.type codec.form) r Fresh :=
  (leads_still (Decode.still_codec type) hr).bind fun codec _ ht _ =>
    recordBody_leads hslot ht codec.type codec.form

theorem recordConstant_leads
    (hslot : ∀ declared r, r.Settled → Leads (slot declared) r fun _ _ => True) (hr : r.Settled)
    (declared : ValueType) : Leads (d.recordConstant slot declared) r fun _ _ => True := by
  refine (leads_still (Decode.still_readType d declared) hr).bind fun type t ht _ => .guard ht ?_
  exact (recordCodec_leads hslot ht type).mono fun _ _ _ => trivial

theorem recordObject_leads
    (hslot : ∀ declared r, r.Settled → Leads (slot declared) r fun _ _ => True) (hr : r.Settled)
    (declared : ValueType) : Leads (d.recordObject slot declared) r Fresh := by
  refine (leads_still (Decode.still_readType d declared) hr).bind fun type t ht _ => .guard ht ?_
  exact recordCodec_leads hslot ht type

theorem recordList_leads
    (hitem : ∀ declared r, r.Settled → Leads (slot declared) r fun _ _ => True) (hr : r.Settled)
    (declared : ValueType) : Leads (d.recordList slot declared) r fun _ _ => True := by
  unfold recordList
  cases declared.element? with
  | none => exact leads_throw hr
  | some element =>
    refine (leads_still (Decode.still_read _) hr).bind fun count t ht _ => .guard ht ?_
    rw [Step.times_eq_each slot element count]
    exact (Record.leads_each ht hitem _).bind fun items u hu _ => leads_pure hu trivial

/-- A back-reference names an object, or is the last thing that happens. -/
theorem recordReference_leads (hr : r.Settled) : Leads recordReference r fun _ _ => True := by
  let met : Recording := { r with log := r.log ++ [.reference r.decoding] }
  show Leads (silently Decode.referent >>= fun h => pure (Value.object h)) met _
  -- the event is there before it is known whether the id names an object
  cases hrun : Decode.referent r.decoding with
  | ok h u =>
    have hmet : met.Settled := hr.meet ⟨h, u, hrun⟩
    exact (leads_still Decode.still_referent hmet).bind fun k t ht _ => leads_pure ht trivial
  | error e u =>
    have hmet : silently Decode.referent met = .error e { met with decoding := u } :=
      Step.on_eq_error_iff.mpr ⟨u, hrun, rfl⟩
    constructor
    · intro v t h
      obtain ⟨k, w, hk, -⟩ := bind_eq_ok_iff.mp h
      cases hmet.symm.trans hk
    · intro f t h
      rcases bind_eq_error_iff.mp h with h | ⟨k, w, hk, -⟩
      · cases hmet.symm.trans h
        exact hr.stop hrun
      · cases hmet.symm.trans hk

theorem recordValue_leads (room : Nat) (hr : r.Settled) (declared : ValueType) :
    Leads (d.recordValue room declared) r fun _ _ => True := by
  induction room generalizing declared r with
  | zero => exact leads_throw hr
  | succ room ih =>
    have hitem : ∀ declared r, r.Settled → Leads (d.recordValue room declared) r fun _ _ => True :=
      fun declared r hr => ih hr declared
    refine (leads_still Decode.still_tag hr).bind fun tag t ht _ => ?_
    cases tag with
    | null => exact leads_pure ht trivial
    | primitive kind =>
      exact (leads_still (Decode.still_read _) ht).bind fun p u hu _ => leads_pure hu trivial
    | list => exact recordList_leads hitem ht declared
    | constant => exact recordConstant_leads hitem ht declared
    | object =>
      exact (recordObject_leads hitem ht declared).finishing fun k u hu => Record.leads_number hu
    | inlineObject =>
      exact (recordObject_leads hitem ht declared).finishing fun k u hu => Record.leads_complete hu
    | backReference => exact recordReference_leads ht

theorem recordRoot_leads (hr : r.Settled) : Leads d.recordRoot r fun _ _ => True := by
  refine (recordValue_leads _ hr .any).bind fun root t ht _ => ?_
  show Leads (if _ then _ else _) t _
  exact .guard ht (leads_pure ht trivial)

/-- The history of a decoding, up to where it ends. -/
def log (d : Decoder) (s : Decoding) : List Event :=
  (Step.after d.recordRoot ⟨s, []⟩).log

/-- At every back-reference of a payload, the numbers are as the history has it; and it names an
object, or else nothing comes after it and its error is the outcome. -/
theorem meets_of_log {payload : List UInt8} {codecs : CodecCache} {before after : List Event}
    {s : Decoding}
    (hlog : d.log ⟨Progress.start payload, codecs⟩ = before ++ .reference s :: after) :
    s.Meets before after ∧ (s.Resolves ∨ after = [] ∧ ∃ e t u, Decode.referent s = .error e t ∧
      d.readRoot ⟨Progress.start payload, codecs⟩ = .error e u) := by
  obtain ⟨hok, herror⟩ :=
    recordRoot_leads (d := d) (Recording.settled_start payload codecs)
  have hplain := recordRoot_erases d ⟨⟨Progress.start payload, codecs⟩, []⟩
  unfold log at hlog
  cases hrun : d.recordRoot ⟨⟨Progress.start payload, codecs⟩, []⟩ with
  | ok v r =>
    rw [Step.after_of_ok hrun] at hlog
    obtain ⟨hr, -⟩ := hok v r hrun
    refine ⟨hr.meets before s after hlog, .inl (hr.resolves s ?_)⟩
    exact hlog ▸ List.mem_append_cons_self
  | error e r =>
    rw [Step.after_of_error hrun] at hlog
    have hr := herror e r hrun
    refine ⟨hr.meets before s after hlog, ?_⟩
    rcases hr.resolves before s after hlog with hresolves | ⟨hafter, t, hreferent⟩
    · exact .inl hresolves
    · rw [hrun] at hplain
      exact .inr ⟨hafter, e, t, r.decoding, hreferent, hplain.symm⟩

end Decoder

end ObjectEnvelope
