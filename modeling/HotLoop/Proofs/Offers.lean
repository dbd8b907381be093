import HotLoop.Proofs.Failure

namespace HotLoop

namespace Tracer

/-- The cache holds the latest of the traces given out, and the loop under recording is not among them. -/
structure Holds (t : Tracer) (bound : Int64) (given : List Trace) : Prop where
  maxTraces : t.maxTraces = bound
  ordered : t.cache.Ordered
  keyed : ∀ key u, t.cache.get? key = some u → u.key = key
  uncached : ∀ r, t.recording = some r → t.cache.get? r.key = none
  traces : t.traces = latest bound given

namespace Holds

variable {t : Tracer} {bound : Int64} {given : List Trace} {r : Recording} {key : LoopKey}

theorem keys_nodup (h : t.Holds bound given) : (t.traces.map Trace.key).Nodup := by
  have horder : t.traces.map Trace.key = t.cache.order := h.ordered.map_key_traces h.keyed
  rw [horder]
  exact h.ordered.nodup

theorem recordLog (h : t.Holds bound given) (log : List Event) : (t.recordLog log).Holds bound given := by
  refine ⟨h.maxTraces, h.ordered, h.keyed, ?_, h.traces⟩
  intro r hr
  obtain ⟨r₀, hr₀, rfl⟩ := Option.map_eq_some_iff.mp hr
  rw [Recording.key_foldl_add]
  exact h.uncached r₀ hr₀

theorem ended (h : t.Holds bound given) {trace : Option Trace}
    (hnew : ∀ u, trace = some u → t.cache.get? u.key = none) :
    (t.ended trace).Holds bound (given ++ trace.toList) := by
  cases trace with
  | none =>
    rw [Option.toList_none, List.append_nil]
    exact ⟨h.maxTraces, h.ordered, h.keyed, nofun, h.traces⟩
  | some u =>
    refine ⟨h.maxTraces, h.ordered.insert _ _, ?_, nofun, ?_⟩
    · intro key v hv
      rcases h.ordered.get?_insert_cases hv with ⟨rfl, rfl⟩ | hv
      · rfl
      · exact h.keyed key v hv
    · calc (t.cache.insert t.maxTraces u).1.traces
        _ = latest t.maxTraces (t.traces ++ [u]) := h.ordered.traces_insert (hnew u rfl) _
        _ = latest bound (given ++ [u]) := by rw [h.traces, h.maxTraces, latest_latest_append]

theorem begun {c : Call} {p : ProgramRef} (h : c.engine.tracer.Holds bound given) (starts : c.Starts p key) :
    (c.begun key).Holds bound given := by
  refine ⟨h.maxTraces, h.ordered, h.keyed, ?_, h.traces⟩
  rintro r ⟨⟩
  exact starts.uncached

end Holds

end Tracer

namespace Engine

theorem holds_ofOptions (o : Options) (session : Session) :
    (ofOptions o session).tracer.Holds o.maxTraces [] := by
  refine ⟨rfl, .empty, ?_, ?_, (List.sublist_nil.mp (latest_sublist _ _)).symm⟩
  · intro key u hu
    exact Cache.all_empty (P := fun u => u.key = key) key u hu
  · intro r hr
    cases hr

end Engine

def Act.journal? : Act → Option (Trace → Bool)
  | attached journal => journal
  | _ => none

def journals (acts : List Act) : List (Trace → Bool) := acts.filterMap Act.journal?

namespace Engine

def Answered (journals : List (Trace → Bool)) (session : Session) (x : Offer) : Prop :=
  x.session = session ∧ ∃ accepts ∈ journals, x.accepted = accepts x.trace

def refused (offers : List Offer) : Nat := offers.countP fun x => !x.accepted

structure Booked (journals : List (Trace → Bool)) (bound : Int64) (session : Session) (e : Engine) : Prop where
  tracer : e.tracer.Holds bound (e.offers.map Offer.trace)
  attached : ∀ accepts, e.journal = some accepts → accepts ∈ journals
  own : e.session = session
  offers : ∀ x ∈ e.offers, Answered journals session x
  errors : e.journalErrors = UInt64.ofNat (refused e.offers)

namespace Booked

variable {e : Engine} {journals : List (Trace → Bool)} {bound : Int64} {session : Session} {accepts : Trace → Bool}

theorem attach (h : e.Booked journals bound session) (journal : Option (Trace → Bool)) :
    Booked (journal.toList ++ journals) bound session { e with journal } := by
  refine ⟨h.tracer, ?_, h.own, ?_, h.errors⟩
  · rintro accepts rfl
    exact List.mem_append_left _ (List.mem_singleton_self accepts)
  · intro x hx
    obtain ⟨hsession, answers, hmem, haccepted⟩ := h.offers x hx
    exact ⟨hsession, answers, List.mem_append_right _ hmem, haccepted⟩

theorem publish (h : e.Booked journals bound session) (hjournal : e.journal = some accepts) {tracer : Tracer}
    {trace : Option Trace} (ht : tracer.Holds bound (e.offers.map Offer.trace ++ trace.toList))
    (visits recordings faults : UInt64) (known : Memory) :
    (Engine.publish { e with visits, known, recordings, tracer, faults } trace).Booked journals bound session := by
  cases trace with
  | none =>
    rw [Option.toList_none, List.append_nil] at ht
    exact ⟨ht, h.attached, h.own, h.offers, h.errors⟩
  | some t =>
    unfold Engine.publish
    simp only [hjournal]
    refine ⟨?_, fun _ heq => h.attached _ (hjournal.trans heq), h.own, ?_, ?_⟩
    · simpa using ht
    · intro x hx
      rcases List.mem_append.mp hx with hx | hx
      · exact h.offers x hx
      · obtain rfl := List.mem_singleton.mp hx
        exact ⟨h.own, accepts, h.attached accepts hjournal, rfl⟩
    · have hcount := h.errors
      cases accepts t with
      | true => simpa [refused] using hcount
      | false => simp [refused, hcount]

theorem visit {c : Call} {v : Visit} (h : c.engine.Booked journals bound session)
    (hjournal : c.engine.journal = some accepts) (hv : c.visit = some v) : v.engine.Booked journals bound session := by
  cases Call.effect hv with
  | disabled | refused | elsewhere => exact ⟨h.tracer, h.attached, h.own, h.offers, h.errors⟩
  | cold | cached =>
    refine ⟨?_, h.attached, h.own, h.offers, h.errors⟩
    exact ⟨h.tracer.maxTraces, h.tracer.ordered, h.tracer.keyed, h.tracer.uncached, h.tracer.traces⟩
  | hot starts known records =>
    refine h.publish hjournal ((h.tracer.begun starts).ended ?_) _ _ _ known
    intro u hu
    exact Call.uncached_of_published (.inl ((records u).mp hu))
  | broken breaks =>
    obtain ⟨p, starts⟩ := breaks.starts
    exact ⟨(h.tracer.begun starts).recordLog _, h.attached, h.own, h.offers, h.errors⟩
  | back busy returns known =>
    refine h.publish hjournal (h.tracer.ended ?_) _ _ _ known
    intro u hu
    exact Call.uncached_of_published (.inr ⟨_, busy, returns, hu⟩)

end Booked

namespace History

variable {e : Engine} {o : Options} {session : Session} {acts : List Act}

theorem booked (h : History o session acts e) (unwarmed : ∀ a ∈ acts, a.warms = false)
    (journaled : ∀ c, .visited c ∈ acts → c.engine.journal ≠ none) :
    e.Booked (journals acts) o.maxTraces session := by
  induction h with
  | fresh => exact ⟨holds_ofOptions o session, nofun, rfl, nofun, rfl⟩
  | warm => cases (List.forall_mem_cons.mp unwarmed).1
  | attach _ journal ih =>
    have hbefore := ih (List.forall_mem_cons.mp unwarmed).2 fun c hc => journaled c (List.mem_cons_of_mem _ hc)
    have hattached := hbefore.attach journal
    cases journal <;> exact hattached
  | forget _ _ ih =>
    have hbefore := ih (List.forall_mem_cons.mp unwarmed).2 fun c hc => journaled c (List.mem_cons_of_mem _ hc)
    exact ⟨hbefore.tracer, hbefore.attached, hbefore.own, hbefore.offers, hbefore.errors⟩
  | @visit _ c _ _ visited ih =>
    have hbefore := ih (List.forall_mem_cons.mp unwarmed).2 fun c hc => journaled c (List.mem_cons_of_mem _ hc)
    obtain ⟨accepts, hjournal⟩ := Option.ne_none_iff_exists'.mp (journaled c List.mem_cons_self)
    exact hbefore.visit hjournal visited

/-- The cache is the end of what the journal was offered. Without a bound it is all of it, and no loop was recorded
twice. A journal that answers differently from visit to visit is attached anew before each of them. -/
theorem caches_latest_offers (h : History o session acts e) (unwarmed : ∀ a ∈ acts, a.warms = false)
    (journaled : ∀ c, .visited c ∈ acts → c.engine.journal ≠ none) :
    (∀ x ∈ e.offers, Answered (journals acts) session x) ∧
    (o.maxTraces ≤ 0 → e.traces = e.offers.map Offer.trace ∧ (e.offers.map fun x => x.trace.key).Nodup) ∧
    (0 < o.maxTraces →
      e.traces = (e.offers.map Offer.trace).drop (e.offers.length - o.maxTraces.toNatClampNeg)) ∧
    e.journalErrors = UInt64.ofNat (refused e.offers) := by
  have hbooked := h.booked unwarmed journaled
  have htraces : e.traces = latest o.maxTraces (e.offers.map Offer.trace) := hbooked.tracer.traces
  refine ⟨hbooked.offers, ?_, ?_, hbooked.errors⟩
  · intro hbound
    have hall : e.traces = e.offers.map Offer.trace := by
      rw [htraces, latest, if_neg (Int64.not_lt.mpr hbound)]
    have hnodup : (e.traces.map Trace.key).Nodup := hbooked.tracer.keys_nodup
    refine ⟨hall, ?_⟩
    rwa [hall, List.map_map] at hnodup
  · intro hbound
    rw [htraces, latest, if_pos hbound, List.length_map]

end History

end Engine

def refusing : Engine := (Engine.ofOptions tightOptions default).withJournal fun _ => false

theorem waitKey_ne_unreadableKey : waitKey ≠ unreadableKey := by decide +kernel

def refusingActs : List Act := [.forgot 0, .visited (unreadableCall refusing), .attached (some fun _ => false)]

theorem refusing_first : ∃ (e : Engine) (t : Trace),
    Engine.History tightOptions default refusingActs e ∧ e.tracer.recording = none ∧ e.session = default ∧
      e.journal = refusing.journal ∧ e.offers = [⟨default, t, false⟩] ∧ t.key = unreadableKey ∧ e.known[0]? = none ∧
        e.tracer.cache.get? waitKey = none ∧ ∀ key, (e.tracer.profiler.visit key).1 = true := by
  have hrefusing : Engine.History tightOptions default [.attached (some fun _ => false)] refusing := .attach .fresh _
  obtain ⟨v, t, hv, hanswer, ht⟩ := unreadable_fails (e := refusing) rfl rfl Std.HashMap.getElem?_empty
    Std.HashMap.getElem?_empty (Profiler.visit_first _)
  have hfound : (unreadableCall refusing).key? = some unreadableKey :=
    Call.key?_of_unknown (p := ⟨0, unreadable⟩) rfl rfl Std.HashMap.getElem?_empty (by decide)
  have hkey : t.key = unreadableKey := by
    obtain ⟨p, starts⟩ := ht.starts
    exact Option.some.inj (starts.found.symm.trans hfound)
  obtain ⟨trace, hpublished, hfollows⟩ := (Call.effect hv).follows
  obtain rfl := (hpublished t).mpr (.inl ht)
  have huncached : v.engine.tracer.cache.get? waitKey = none := by
    have hcache : v.engine.tracer.cache = (({} : Cache).insert 1 t).1 := hfollows.cache
    rw [hcache, Option.eq_none_iff_forall_ne_some]
    intro u hget
    rcases Cache.Ordered.empty.get?_insert_cases hget with ⟨heq, _⟩ | hget
    · exact waitKey_ne_unreadableKey (heq.trans hkey)
    · cases Std.HashMap.getElem?_empty.symm.trans hget
  have hidle : v.engine.tracer.recording = none := by
    rw [Option.eq_none_iff_forall_ne_some]
    intro r hr
    cases (((Call.effect hv).recording_iff (by simp [hanswer])).mp hr).1
  -- the second loop comes under the same identity, so the first one is forgotten
  refine ⟨v.engine.forget 0, t, .forget (.visit hrefusing hv) 0, hidle, hfollows.session, hfollows.journal,
    hfollows.offers, hkey, Std.HashMap.getElem?_erase_self, huncached, ?_⟩
  intro key
  change (v.engine.tracer.profiler.visit key).1 = true
  rw [ht.profiler hv]
  exact Profiler.visit_reset rfl key

theorem Engine.History.caches_latest_offers_refusing :
    ∃ (e₁ e : Engine) (t u : Trace),
      History tightOptions default (.visited (waitCall e₁ 2) :: refusingActs) e ∧
      e.offers.map Offer.trace = [t, u] ∧ t.key ≠ u.key ∧ e.traces = [u] ∧ e.journalErrors = 2 := by
  obtain ⟨e₁, t, hfirst, hidle, hsession, hjournal, hoffers₁, hkey, unknown, uncached, often⟩ := refusing_first
  have enabled := congrArg Options.disabled hfirst.options_eq
  obtain ⟨e, u, hvisit, hu, _⟩ := waitCall_records enabled hidle unknown uncached (often _)
  have hboth : History tightOptions default (.visited (waitCall e₁ 2) :: refusingActs) e := .visit hfirst hvisit
  have hoffers : e.offers = [⟨default, t, false⟩, ⟨default, u, false⟩] := by
    rw [(hu.published hfirst.settled hvisit).2]
    change e₁.offers ++ e₁.offered u = _
    rw [hoffers₁, offered, hjournal, hsession]
    rfl
  have hukey : u.key = waitKey := by
    obtain ⟨p, starts⟩ := hu.starts
    exact Option.some.inj (starts.found.symm.trans (waitCall_key enabled unknown 2))
  obtain ⟨_, _, hlatest, herrors⟩ := caches_latest_offers hboth (by simp [refusingActs, Act.warms]) (by
    intro c hc
    obtain rfl | rfl : c = waitCall e₁ 2 ∨ c = unreadableCall refusing := by simpa [refusingActs] using hc
    · exact hjournal ▸ Option.some_ne_none _
    · exact Option.some_ne_none _)
  refine ⟨e₁, e, t, u, hboth, ?_, ?_, ?_, ?_⟩
  · rw [hoffers]
    rfl
  · rw [hkey, hukey]
    exact waitKey_ne_unreadableKey.symm
  · rw [hlatest (by decide), hoffers]
    rfl
  · rw [herrors, hoffers]
    rfl

end HotLoop
