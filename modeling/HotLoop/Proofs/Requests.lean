import HotLoop.Proofs.Eviction

namespace HotLoop

namespace Cache

variable {c d : Cache} {t : Trace} {bound : Int64} {n : Nat}

structure Agrees (c : Cache) : Prop extends c.Ordered where
  key_eq : ∀ key u, c.get? key = some u → u.key = key

theorem Agrees.empty : Agrees {} where
  toOrdered := .empty
  key_eq := by simp [get?]

theorem Agrees.insert (h : c.Agrees) (bound : Int64) (t : Trace) : (c.insert bound t).1.Agrees where
  toOrdered := h.toOrdered.insert bound t
  key_eq key u hu := by
    rcases h.toOrdered.get?_insert_cases hu with ⟨rfl, rfl⟩ | hold
    · rfl
    · exact h.key_eq key u hold

inductive Evicting (n : Nat) (c : Cache) : Cache → Prop
  | start : Evicting n c c
  | turn {oldest : LoopKey} {rest : List LoopKey} {table : Std.HashMap LoopKey Trace}
    (before : Evicting n c ⟨oldest :: rest, table⟩) (excess : n < table.size) : Evicting n c ⟨rest, table.erase oldest⟩

theorem Evicting.ordered (h : Evicting n c d) (hc : c.Ordered) : d.Ordered := by
  induction h with
  | start => exact hc
  | turn _ _ ih => exact ih.tail

theorem Evicting.order_ne_nil (h : Evicting n c d) (hc : c.Ordered) (excess : n < d.size) : d.order ≠ [] := by
  have hsize : d.size = d.order.length := (h.ordered hc).size_eq
  apply List.ne_nil_of_length_pos
  omega

theorem Evicting.dropTo {order : List LoopKey} {table : Std.HashMap LoopKey Trace} (h : Evicting n c ⟨order, table⟩) :
    Evicting n c (Cache.dropTo n order table).1 := by
  induction order generalizing table with
  | nil => exact h
  | cons oldest rest ih =>
    unfold Cache.dropTo
    split
    · next excess => exact ih (h.turn excess)
    · exact h

theorem evicting_insert (hb : 0 < bound) (c : Cache) (t : Trace) :
    Evicting bound.toNatClampNeg (c.added t) (c.insert bound t).1 := by
  rw [insert_eq, trim, if_pos hb]
  exact Evicting.start.dropTo

namespace Ordered

theorem order_insert_of_cached (h : c.Ordered) (hsize : 0 < bound → c.order.length ≤ bound.toNatClampNeg)
    (hcached : c.get? t.key ≠ none) : (c.insert bound t).1.order = c.order := by
  obtain ⟨horder, _⟩ := (h.added t).trim bound
  rw [insert_eq, horder, order_added_of_cached hcached, latest_of_length_le hsize]

end Ordered

theorem Agrees.traces_insert_of_cached (h : c.Agrees)
    (hsize : 0 < bound → c.order.length ≤ bound.toNatClampNeg) (hcached : c.get? t.key ≠ none) :
    (c.insert bound t).1.traces = c.traces.map fun u => if u.key = t.key then t else u := by
  obtain ⟨_, _, hget⟩ := (h.toOrdered.added t).trim bound
  rw [order_added_of_cached hcached, latest_of_length_le hsize] at hget
  apply (List.map_inj_right fun _ _ => Option.some.inj).mp
  calc (c.insert bound t).1.traces.map some
    _ = c.order.map (c.insert bound t).1.get? := by
      rw [(h.insert bound t).map_traces, h.order_insert_of_cached hsize hcached]
    _ = c.order.map fun key => (c.get? key).map fun u => if u.key = t.key then t else u := by
      apply List.map_congr_left
      intro key hkey
      obtain ⟨u, hu⟩ := h.exists_get? hkey
      rw [insert_eq, hget, if_pos hkey, get?_added, hu, Option.map_some, h.key_eq key u hu]
      split <;> rfl
    _ = (c.traces.map some).map (Option.map fun u => if u.key = t.key then t else u) := by
      rw [h.map_traces, List.map_map]
      rfl
    _ = (c.traces.map fun u => if u.key = t.key then t else u).map some := by simp

end Cache

inductive Request
  | visit (key : LoopKey)
  | start (key : LoopKey)
  | event (e : Event)
  | finish
  | abort
  | install (u : Trace)
  | bound (maxTraces : Int64)
  | optimize (on : Bool)

namespace Tracer

variable {t : Tracer} {r : Request} {requests : List Request} {bound : Int64}

def serve (t : Tracer) : Request → Option Trace × Tracer
  | .visit key => ((t.handle key).1.finished, (t.handle key).2)
  | .start key => (none, (t.startRecording key).toOption.getD t)
  | .event e => (none, (t.recordEvent e).toOption.getD t)
  | .finish => t.finish.toOption.getD (none, t)
  | .abort => (none, t.abort)
  | .install u => (if u.instrs.isEmpty then none else some u, t.install u)
  | .bound maxTraces => (none, { t with maxTraces })
  | .optimize on => (none, { t with optimize := on })

def serveAll (t : Tracer) (requests : List Request) : Tracer := requests.foldl (fun t r => (t.serve r).2) t

structure Takes (t : Tracer) (trace : Option Trace) (t' : Tracer) : Prop where
  cache : t'.cache = trace.elim t.cache fun u => (t.cache.insert t.maxTraces u).1
  bound : t'.maxTraces = t.maxTraces

theorem takes_complete (t : Tracer) (r : Recording) : t.Takes (t.complete r).1 (t.complete r).2 := by
  by_cases hempty : r.code.isEmpty = true
  · rw [complete_of_isEmpty hempty]
    exact ⟨rfl, rfl⟩
  · rw [complete_of_not_isEmpty hempty]
    exact ⟨rfl, rfl⟩

theorem takes_handle (t : Tracer) (key : LoopKey) : t.Takes (t.handle key).1.finished (t.handle key).2 := by
  have hhandled := t.handled key
  generalize t.handle key = answer at hhandled
  cases hhandled with
  | cached | hot | cold | elsewhere => exact ⟨rfl, rfl⟩
  | back => exact takes_complete t _

theorem takes_serve (t : Tracer) (hr : ∀ n, r ≠ .bound n) : t.Takes (t.serve r).1 (t.serve r).2 := by
  cases r with
  | visit key => exact takes_handle t key
  | start key =>
    unfold serve startRecording
    cases t.recording <;> exact ⟨rfl, rfl⟩
  | event e =>
    unfold serve recordEvent
    cases t.recording <;> exact ⟨rfl, rfl⟩
  | finish =>
    unfold serve finish
    cases t.recording with
    | none => exact ⟨rfl, rfl⟩
    | some recording => exact takes_complete t recording
  | abort =>
    unfold serve abort
    cases t.recording <;> exact ⟨rfl, rfl⟩
  | install u =>
    unfold serve install
    cases hempty : u.instrs.isEmpty <;> simp only [hempty] <;> exact ⟨rfl, rfl⟩
  | bound n => exact absurd rfl (hr n)
  | optimize on => exact ⟨rfl, rfl⟩

theorem agrees_serve (h : t.cache.Agrees) (r : Request) : (t.serve r).2.cache.Agrees := by
  by_cases hr : ∃ n, r = .bound n
  · obtain ⟨n, rfl⟩ := hr
    exact h
  · rw [(takes_serve t (not_exists.mp hr)).cache]
    cases (t.serve r).1 with
    | none => exact h
    | some u => exact h.insert t.maxTraces u

theorem agrees_serveAll (h : t.cache.Agrees) (requests : List Request) : (t.serveAll requests).cache.Agrees := by
  induction requests generalizing t with
  | nil => exact h
  | cons r rest ih => exact ih (agrees_serve h r)

structure Within (bound : Int64) (t : Tracer) : Prop where
  maxTraces : t.maxTraces = bound
  length_le : 0 < bound → t.cache.order.length ≤ bound.toNatClampNeg

theorem Within.serve (h : t.Within bound) (hc : t.cache.Ordered) (hr : ∀ n, r = .bound n → n = bound) :
    (t.serve r).2.Within bound := by
  by_cases hbound : ∃ n, r = .bound n
  · obtain ⟨n, rfl⟩ := hbound
    exact ⟨hr n rfl, h.length_le⟩
  · have htakes := takes_serve t (not_exists.mp hbound)
    refine ⟨htakes.bound.trans h.maxTraces, ?_⟩
    rw [htakes.cache]
    cases (t.serve r).1 with
    | none => exact h.length_le
    | some u =>
      intro hpos
      rw [h.maxTraces]
      exact hc.length_insert_le hpos u

theorem Within.serveAll (h : t.Within bound) (hc : t.cache.Agrees) (hrequests : ∀ n, .bound n ∈ requests → n = bound) :
    (t.serveAll requests).Within bound := by
  induction requests generalizing t with
  | nil => exact h
  | cons r rest ih =>
    have hserve : (t.serve r).2.Within bound := by
      apply h.serve hc.toOrdered
      rintro n rfl
      exact hrequests n List.mem_cons_self
    exact ih hserve (agrees_serve hc r) fun n hn => hrequests n (List.mem_cons_of_mem r hn)

def asked (threshold : UInt64) (bound : Int64) (requests : List Request) : Tracer :=
  ({ ofThreshold threshold with maxTraces := bound } : Tracer).serveAll requests

theorem agrees_asked (threshold : UInt64) (bound : Int64) (requests : List Request) :
    (asked threshold bound requests).cache.Agrees :=
  agrees_serveAll .empty requests

theorem within_asked (threshold : UInt64) (hrequests : ∀ n, .bound n ∈ requests → n = bound) :
    (asked threshold bound requests).Within bound :=
  Within.serveAll ⟨rfl, fun _ => Nat.zero_le _⟩ .empty hrequests

/-- After any requests the order of the cache lists the keys of its table, each of them once, every trace is under its
own key, and each place in the order has a trace. An insertion under a bound finds a key at each turn of its eviction
and leaves no more traces than the bound. As long as the bound stays, the trace that comes in is then cached, and in the
place of the one it replaces, if there is one. -/
theorem cache_listed (threshold : UInt64) (bound : Int64) (requests : List Request) :
    let t := asked threshold bound requests
    t.cache.order.Nodup ∧
    (∀ key, key ∈ t.cache.order ↔ (t.cache.get? key).isSome) ∧
    (∀ key u, t.cache.get? key = some u → u.key = key) ∧
    t.traces.map some = t.cache.order.map t.cache.get? ∧
    ∀ r u, (t.serve r).1 = some u →
      (t.serve r).2.cache = (t.cache.insert t.maxTraces u).1 ∧
      (0 < t.maxTraces →
        Cache.Evicting t.maxTraces.toNatClampNeg (t.cache.added u) (t.serve r).2.cache ∧
        (∀ d, Cache.Evicting t.maxTraces.toNatClampNeg (t.cache.added u) d → t.maxTraces.toNatClampNeg < d.size →
          d.order ≠ []) ∧
        (t.serve r).2.cache.size ≤ t.maxTraces.toNatClampNeg) ∧
      ((∀ n, .bound n ∈ requests → n = bound) →
        (t.serve r).2.cache.get? u.key = some u ∧
        (t.cache.get? u.key ≠ none →
          (t.serve r).2.traces = t.traces.map fun w => if w.key = u.key then u else w)) := by
  intro t
  have hagrees : t.cache.Agrees := agrees_asked threshold bound requests
  have hordered := hagrees.toOrdered
  refine ⟨hordered.nodup, fun key => ?_, hagrees.key_eq, hordered.map_traces, fun r u hu => ?_⟩
  · rw [hordered.mem_iff]
    exact Std.HashMap.mem_iff_isSome_getElem?
  have hcache : (t.serve r).2.cache = (t.cache.insert t.maxTraces u).1 := by
    have htakes := takes_serve t (r := r) fun n hn => by cases hn ▸ hu
    rw [htakes.cache, hu, Option.elim_some]
  refine ⟨hcache, fun hpos => ?_, fun hrequests => ?_⟩
  · rw [hcache]
    refine ⟨Cache.evicting_insert hpos t.cache u, fun d hd => hd.order_ne_nil (hordered.added u), ?_⟩
    rw [Cache.size, (hordered.insert t.maxTraces u).size_eq]
    exact hordered.length_insert_le hpos u
  · have hwithin : t.Within bound := within_asked threshold hrequests
    rw [traces, hcache, hwithin.maxTraces]
    exact ⟨hordered.get?_insert_self hwithin.length_le, hagrees.traces_insert_of_cached hwithin.length_le⟩

def crowd : List Request :=
  [.install ⟨1, {}, some [.pop]⟩, .install ⟨2, {}, some [.pop]⟩, .install ⟨3, {}, some [.pop]⟩, .start 2,
    .event ⟨.load 7, {}, false⟩]

theorem traces_crowd : (asked 1 2 crowd).traces = [⟨2, {}, some [.pop]⟩, ⟨3, {}, some [.pop]⟩] := by
  have hbound : (0 : Int64) < 2 := by decide
  have htwo : (2 : Int64).toNatClampNeg = 2 := by decide
  simp [asked, crowd, serveAll, serve, install, insert, Cache.insert, Cache.trim, Cache.dropTo, Trace.instrs,
    ofThreshold, traces, Cache.traces, Cache.get?, startRecording, recordEvent, beginRecording, hbound, htwo,
    Std.HashMap.size_insert, Std.HashMap.size_erase, Except.toOption, Std.HashMap.getElem_insert]

theorem cache_listed_crowd : ∃ u, ((asked 1 2 crowd).serve .finish).1 = some u ∧ u.key = 2 ∧
    ((asked 1 2 crowd).serve .finish).2.traces = [u, ⟨3, {}, some [.pop]⟩] := by
  have hfinish : ((asked 1 2 crowd).serve .finish).1 = some ⟨2, {}, some [.load 7]⟩ := by rfl
  have hbound : ∀ n, .bound n ∈ crowd → n = 2 := by simp [crowd]
  obtain ⟨_, _, hkeys, _, hinserted⟩ := cache_listed 1 2 crowd
  have hcached : (asked 1 2 crowd).cache.get? 2 = some ⟨2, {}, some [.pop]⟩ := by
    have hmem : ⟨2, {}, some [.pop]⟩ ∈ (asked 1 2 crowd).traces := by
      rw [traces_crowd]
      exact List.mem_cons_self
    obtain ⟨key, _, hkey⟩ := List.mem_filterMap.mp hmem
    rwa [← hkeys key _ hkey] at hkey
  obtain ⟨_, _, hkept⟩ := hinserted .finish _ hfinish
  obtain ⟨_, hreplaced⟩ := hkept hbound
  refine ⟨_, hfinish, rfl, ?_⟩
  rw [hreplaced (hcached ▸ Option.some_ne_none _), traces_crowd]
  rfl

end Tracer

end HotLoop
