import HotLoop.Proofs.Journal.Newest
import HotLoop.Proofs.Offers

namespace HotLoop

namespace Tracer

variable {t : Tracer} {bound : Int64} {given : List Trace} {u : Trace}

theorem recording_install (t : Tracer) (u : Trace) : (t.install u).recording = t.recording := by
  unfold install
  split <;> rfl

namespace Holds

theorem mem_traces_iff (h : t.Holds bound given) : u ∈ t.traces ↔ t.cache.get? u.key = some u := by
  constructor
  · intro hu
    obtain ⟨key, _, hget⟩ := List.mem_filterMap.mp hu
    rwa [h.keyed key u hget]
  · intro hget
    exact List.mem_filterMap.mpr ⟨u.key, h.ordered.mem_of_get? hget, hget⟩

theorem install (h : t.Holds bound given) (idle : t.recording = none) (hnew : t.cache.get? u.key = none) :
    (t.install u).Holds bound (given ++ [u].filter fun u => !u.instrs.isEmpty) := by
  unfold Tracer.install
  by_cases hempty : u.instrs.isEmpty = true
  · rw [if_pos hempty, List.filter_singleton]
    simpa [hempty] using h
  · rw [if_neg hempty, List.filter_singleton]
    simp only [hempty]
    refine ⟨h.maxTraces, h.ordered.insert _ _, ?_, ?_, ?_⟩
    · intro key v hv
      rcases h.ordered.get?_insert_cases hv with ⟨rfl, rfl⟩ | hv
      · rfl
      · exact h.keyed key v hv
    · intro r hr
      cases idle.symm.trans hr
    · calc (t.cache.insert t.maxTraces u).1.traces
        _ = latest t.maxTraces (t.traces ++ [u]) := h.ordered.traces_insert hnew _
        _ = latest bound (given ++ [u]) := by rw [h.traces, h.maxTraces, latest_latest_append]

end Holds

theorem Holds.installs (h : t.Holds bound given) (idle : t.recording = none) {us : List Trace}
    (hkeys : (us.map Trace.key).Nodup) (hnew : ∀ u ∈ us, t.cache.get? u.key = none) :
    (us.foldl Tracer.install t).Holds bound (given ++ us.filter fun u => !u.instrs.isEmpty) := by
  induction us generalizing t given with
  | nil => simpa using h
  | cons u us ih =>
    obtain ⟨hu, hkeys⟩ := List.nodup_cons.mp hkeys
    obtain ⟨hfirst, hrest⟩ := List.forall_mem_cons.mp hnew
    have hinstalled := ih (h.install idle hfirst) ((t.recording_install u).trans idle) hkeys (by
      intro v hv
      apply get?_install h.ordered _ (hrest v hv)
      intro heq
      exact hu (heq ▸ List.mem_map_of_mem hv))
    rwa [List.append_assoc, ← List.filter_append] at hinstalled

end Tracer

namespace Journal

variable {entries : List Entry} {found : List Stamped} {p q : Stamped}

theorem Entry.key_trace (x : Entry) : x.trace.key = x.key := by cases x <;> rfl

theorem Newest.eq (hp : Newest entries p) (hq : Newest entries q) (hkey : p.1.key = q.1.key) : p = q := by
  rcases hq.newest p hp.stands hkey with heq | hearlier
  · exact heq
  · rcases hp.newest q hq.stands hkey.symm with heq | hlater
    · exact heq.symm
    · exact absurd hlater hearlier.asymm

theorem Lists.kept {asked : Entry → Prop} {t : Tracer} {bound : Int64} (h : Lists entries asked (Newest entries) found)
    (ht : t.Holds bound ((found.map fun p => p.1.trace).filter fun u => !u.instrs.isEmpty)) (hp : Newest entries p) :
    t.cache.get? p.1.key ≠ none ↔ p ∈ HotLoop.latest bound (found.filter fun p => !p.1.trace.instrs.isEmpty) := by
  have htraces : t.traces =
      (HotLoop.latest bound (found.filter fun p => !p.1.trace.instrs.isEmpty)).map fun p => p.1.trace := by
    rw [ht.traces, List.filter_map, map_latest]
    rfl
  constructor
  · intro hcached
    obtain ⟨u, hu⟩ := Option.ne_none_iff_exists'.mp hcached
    have hmem : u ∈ t.traces := ht.mem_traces_iff.mpr (by rwa [ht.keyed _ u hu])
    rw [htraces] at hmem
    obtain ⟨q, hq, rfl⟩ := List.mem_map.mp hmem
    have hnewest : Newest entries q :=
      (h.mem_iff q).mp (List.mem_of_mem_filter ((latest_sublist _ _).mem hq))
    have hkey : q.1.key = p.1.key := q.1.key_trace.symm.trans (ht.keyed _ _ hu)
    rwa [← hnewest.eq hp hkey]
  · intro hmem hnone
    have hu : p.1.trace ∈ t.traces := htraces ▸ List.mem_map_of_mem hmem
    rw [ht.mem_traces_iff, Entry.key_trace] at hu
    cases hnone.symm.trans hu

theorem Lists.earlier_of_dropped {asked : Entry → Prop} {t : Tracer} {bound : Int64}
    (h : Lists entries asked (Newest entries) found)
    (ht : t.Holds bound ((found.map fun p => p.1.trace).filter fun u => !u.instrs.isEmpty)) (hp : Newest entries p)
    (hq : Newest entries q) (hcode : p.1.trace.instrs ≠ []) (hdropped : t.cache.get? p.1.key = none)
    (hkept : t.cache.get? q.1.key ≠ none) : Earlier p q := by
  obtain ⟨front, hsplit⟩ := exists_append_latest bound (found.filter fun p => !p.1.trace.instrs.isEmpty)
  have hsorted := h.sorted.filter fun p => !p.1.trace.instrs.isEmpty
  have hmem : p ∈ found.filter fun p => !p.1.trace.instrs.isEmpty :=
    List.mem_filter.mpr ⟨(h.mem_iff p).mpr hp, by simpa using hcode⟩
  rw [hsplit] at hsorted hmem
  -- what is dropped stands in front of what is kept
  have hfront : p ∈ front := (List.mem_append.mp hmem).resolve_right fun hlast => (h.kept ht hp).mpr hlast hdropped
  exact (List.pairwise_append.mp hsorted).2.2 p hfront q ((h.kept ht hq).mp hkept)

/-- An engine warmed with the latest traces of a journal keeps those with code, in their order, and of these the last
ones if its cache is bounded. Each loop that is kept has its newest trace, and those left out are the earlier ones. -/
theorem warms_newest (h : ∀ p, Stands entries p → p.1.Decodable) (o : Options) (session : Session) :
    ∃ traces, (ofEntries entries).latest = .ok traces ∧
      let e := (Engine.ofOptions o session).warm traces
      let usable := traces.filter fun u => !u.instrs.isEmpty
      (o.maxTraces ≤ 0 → e.traces = usable) ∧
      (0 < o.maxTraces → e.traces = usable.drop (usable.length - o.maxTraces.toNatClampNeg)) ∧
      (∀ key u, e.tracer.cache.get? key = some u → ∃ p, Newest entries p ∧ p.1.key = key ∧ p.1.trace = u) ∧
      ∀ p q, Newest entries p → Newest entries q → p.1.trace.instrs ≠ [] → e.tracer.cache.get? p.1.key = none →
        e.tracer.cache.get? q.1.key ≠ none → Earlier p q := by
  obtain ⟨found, hlists, hlatest⟩ := exists_latest h
  refine ⟨found.map fun p => p.1.trace, hlatest, ?_⟩
  intro e usable
  have hkeys : ((found.map fun p => p.1.trace).map Trace.key).Nodup := by
    simpa only [List.map_map, Function.comp_def, Entry.key_trace] using hlists.once
  have hholds : e.tracer.Holds o.maxTraces usable :=
    (Engine.holds_ofOptions o session).installs rfl hkeys fun _ _ => Std.HashMap.getElem?_empty
  have htraces : e.traces = HotLoop.latest o.maxTraces usable := hholds.traces
  refine ⟨?_, ?_, ?_, fun p q => hlists.earlier_of_dropped hholds⟩
  · intro hbound
    rw [htraces, HotLoop.latest, if_neg (Int64.not_lt.mpr hbound)]
  · intro hbound
    rw [htraces, HotLoop.latest, if_pos hbound]
  · intro key u hu
    have hmem : u ∈ e.traces := hholds.mem_traces_iff.mpr (by rwa [hholds.keyed key u hu])
    rw [htraces] at hmem
    obtain ⟨p, hp, rfl⟩ := List.mem_map.mp (List.mem_of_mem_filter ((latest_sublist _ _).mem hmem))
    exact ⟨p, (hlists.mem_iff p).mp hp, p.1.key_trace.symm.trans (hholds.keyed key _ hu), rfl⟩

theorem warms_newest_contested :
    ∃ traces, (ofEntries contested).latest = .ok traces ∧ traces.length = 3 ∧
      ((Engine.ofOptions { maxTraces := 1 } default).warm traces).traces = [{ key := 9, code := some [.pop] }] ∧
        Earlier (contested[1], 1) (contested[4], 4) := by
  obtain ⟨traces, hlatest, _, hbounded, hnewest, hearlier⟩ :=
    warms_newest contested_decodable { maxTraces := 1 } default
  obtain ⟨found, hlists, hfound⟩ := exists_latest contested_decodable
  obtain rfl := hlists.eq contestedNewest mem_contestedNewest contestedNewest_sorted
  obtain rfl := Except.ok.inj (hlatest.symm.trans hfound)
  let e := (Engine.ofOptions { maxTraces := 1 } default).warm (contestedNewest.map fun p => p.1.trace)
  have htraces : e.traces = [{ key := 9, code := some [.pop] }] := hbounded (by decide)
  have hordered : e.tracer.cache.Ordered := (Engine.History.warm .fresh _).settled.ordered
  have hkeys : e.tracer.cache.order = [9] := by
    rw [← hordered.map_key_traces]
    · exact congrArg (List.map Trace.key) htraces
    · intro key u hu
      obtain ⟨p, _, rfl, rfl⟩ := hnewest key u hu
      exact p.1.key_trace
  refine ⟨_, hlatest, rfl, htraces, ?_⟩
  apply hearlier _ _ ((mem_contestedNewest _).mp (by decide)) ((mem_contestedNewest _).mp (by decide)) (by decide)
  · apply hordered.get?_of_not_mem
    rw [hkeys]
    decide
  · obtain ⟨u, hu⟩ := hordered.exists_get? (hkeys ▸ List.mem_singleton_self 9)
    exact Option.ne_none_iff_exists'.mpr ⟨u, hu⟩

end Journal

end HotLoop
