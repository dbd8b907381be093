import HotLoop.Proofs.Recognition
import HotLoop.Proofs.Wire.Codec

namespace HotLoop

open Wire

theorem eq_of_digits {k m n : Nat} (hm : m < Nat.pow 256 k) (hn : n < Nat.pow 256 k)
    (h : ∀ i < k, m / Nat.pow 256 i % 256 = n / Nat.pow 256 i % 256) : m = n := by
  induction k generalizing m n with
  | zero => exact (Nat.lt_one_iff.mp hm).trans (Nat.lt_one_iff.mp hn).symm
  | succ k ih =>
    have hm' : m < Nat.pow 256 k * 256 := hm
    have hn' : n < Nat.pow 256 k * 256 := hn
    have hlast : m / 1 % 256 = n / 1 % 256 := h 0 (Nat.succ_pos k)
    have hrest : m / 256 = n / 256 := by
      apply ih
      · exact Nat.div_lt_of_lt_mul (Nat.mul_comm .. ▸ hm')
      · exact Nat.div_lt_of_lt_mul (Nat.mul_comm .. ▸ hn')
      · intro i hi
        rw [Nat.div_div_eq_div_mul, Nat.div_div_eq_div_mul, Nat.mul_comm]
        exact h (i + 1) (Nat.succ_lt_succ hi)
    omega

theorem toNat_wordByte {i : Nat} (hi : i < 8) (n : UInt64) :
    (n >>> (8 * UInt64.ofNat i)).toUInt8.toNat = n.toNat / Nat.pow 256 i % 256 := by
  have hsmall : 8 * i < 64 := by omega
  have hshift : (8 * UInt64.ofNat i).toNat = 8 * i := by
    have hsize : 8 * i < UInt64.size := Nat.lt_trans hsmall (by decide)
    rw [UInt64.toNat_mul, UInt64.toNat_ofNat_of_lt' (by omega)]
    exact Nat.mod_eq_of_lt hsize
  rw [UInt64.toNat_toUInt8, UInt64.toNat_shiftRight, hshift, Nat.mod_eq_of_lt hsmall, Nat.shiftRight_eq_div_pow]
  exact congrArg (fun d => n.toNat / d % 256) (Nat.pow_mul 2 8 i)

theorem wordBytes_inj {m n : UInt64} (h : wordBytes m = wordBytes n) : m = n := by
  apply UInt64.toNat.inj
  refine eq_of_digits (k := 8) m.toNat_lt n.toNat_lt fun i hi => ?_
  have hbyte := List.map_inj_left.mp h i (List.mem_range.mpr hi)
  rw [← toNat_wordByte hi, ← toNat_wordByte hi, hbyte]

theorem wordBytes_append_inj {m n : UInt64} {xs ys : Bytes} (h : wordBytes m ++ xs = wordBytes n ++ ys) :
    m = n ∧ xs = ys := by
  obtain ⟨hword, hrest⟩ := List.append_inj h rfl
  exact ⟨wordBytes_inj hword, hrest⟩

theorem loopKeyBytes_inj {fingerprint fingerprint' : UInt64} {pos pos' : Position} {pc pc' : UInt64}
    (h : loopKeyBytes fingerprint pos pc = loopKeyBytes fingerprint' pos' pc') :
    fingerprint = fingerprint' ∧ pos = pos' ∧ pc = pc' := by
  simp only [loopKeyBytes, List.append_assoc] at h
  obtain ⟨hfingerprint, h⟩ := wordBytes_append_inj h
  obtain ⟨hfunc, h⟩ := wordBytes_append_inj h
  obtain ⟨hindex, hpc⟩ := wordBytes_append_inj h
  obtain ⟨func, index⟩ := pos
  obtain ⟨func', index'⟩ := pos'
  obtain rfl : func = func' := by simpa using congrArg UInt64.toInt64 hfunc
  obtain rfl : index = index' := by simpa using congrArg UInt64.toInt64 hindex
  exact ⟨hfingerprint, rfl, wordBytes_inj hpc⟩

namespace Walk

variable {prog : Program} {w : Window} {home root : Frame} {s : Walk} {pos : Position}

structure Begins (pos : Position) (s : Walk) : Prop where
  unlogged : s.log = [] → s.pos = pos
  logged : ∀ e, s.log.getLast? = some e → e.pos = pos

theorem Begins.getLast? (h : s.Begins pos) {i : Instr} {taken : Bool} {e : Event}
    (he : (⟨i, s.pos, taken⟩ :: s.log).getLast? = some e) : e.pos = pos := by
  cases hlog : s.log with
  | nil =>
    rw [hlog] at he
    cases he
    exact h.unlogged hlog
  | cons first rest =>
    rw [hlog, List.getLast?_cons_cons, ← hlog] at he
    exact h.logged e he

theorem Begins.again (h : s.Begins pos) (hw : w.logged = true) {s' : Walk}
    (hturn : turn prog w home root s = .again s') : s'.Begins pos := by
  simp only [turn, hw, if_true] at hturn
  split at hturn
  · cases hturn
  · split at hturn
    · cases hturn
    · cases hturn
    · split at hturn
      · cases hturn
      · split at hturn
        · cases hturn
        · cases hturn
          exact ⟨by simp, fun e he => h.getLast? he⟩

theorem Begins.done (h : s.Begins pos) (hw : w.logged = true) {r : Ended Exit}
    (hturn : turn prog w home root s = .done r) {e : Event} (he : r.log.head? = some e) : e.pos = pos := by
  simp only [turn, hw, if_true] at hturn
  split at hturn
  · cases hturn
    exact h.logged e (List.head?_reverse ▸ he)
  · split at hturn
    · cases hturn
      exact h.logged e (List.head?_reverse ▸ he)
    · cases hturn
      exact h.logged e (List.head?_reverse ▸ he)
    · split at hturn
      · cases hturn
        exact h.getLast? (List.head?_reverse ▸ he)
      · split at hturn
        · cases hturn
          exact h.getLast? (List.head?_reverse ▸ he)
        · cases hturn

end Walk

theorem Machine.first_of_record {prog : Program} {pos : Position} {m : Machine} {fuel : Nat} {r : Ended Exit}
    (h : m.record prog fuel pos = some r) {event : Event} {rest : List Event} (hlog : r.log = event :: rest) :
    event.pos = pos := by
  have hfirst : ∀ e, r.log.head? = some e → e.pos = pos := by
    unfold Machine.record Machine.run at h
    split at h
    · refine iterate_invariant (P := Walk.Begins pos)
        (Q := fun r => ∀ e, r.log.head? = some e → e.pos = pos) ?_ ?_ ⟨fun _ => rfl, by simp⟩ h
      · intro s s' hs
        exact hs.again rfl
      · intro s r hs hturn e
        exact hs.done rfl hturn
    · cases h
      simp
  exact hfirst event (by rw [hlog, List.head?_cons])

namespace Call

open Engine (Visit)

variable {c d : Call} {t : Trace} {key : LoopKey} {acts : List Act} {bytes : Bytes}

/-- The trace is what the recording run of the call wrote down. The run came round the loop, or it crashed and a later
visit finished its recording. -/
def Yields (c : Call) (t : Trace) : Prop :=
  ∃ p key frame outcome m log, c.Starts p key ∧
    Engine.Ran c.fuel p.program c.pos c.user c.pc c.cell frame ⟨outcome, m, log⟩ ∧
      (outcome = .ok .looped ∨ outcome = .crash) ∧ log.filterMap Event.traced? ≠ [] ∧ t = c.traceOf key log

theorem Records.yields (h : c.Records t) : c.Yields t := by
  obtain ⟨p, key, frame, m, log, hround, hne, ht⟩ := h
  exact ⟨p, key, frame, _, m, log, hround.toStarts, hround.looped, .inl rfl, hne, ht⟩

theorem Breaks.yields {log : List Event} (h : c.Breaks key log) (hne : log.filterMap Event.traced? ≠ []) :
    c.Yields (c.traceOf key log) := by
  cases h with
  | unseeded => exact absurd rfl hne
  | crashed starts ran => exact ⟨_, key, _, _, _, log, starts, ran, .inr rfl, hne, rfl⟩

theorem Yields.found (h : c.Yields t) : c.key? = some t.key := by
  obtain ⟨p, key, frame, outcome, m, log, starts, _, _, _, rfl⟩ := h
  rw [key_traceOf]
  exact starts.found

theorem Yields.start (h : c.Yields t) : t.start = c.pos := by
  obtain ⟨p, key, frame, outcome, m, log, _, ⟨m₀, _, hrun⟩, _, hne, rfl⟩ := h
  cases log with
  | nil => exact absurd rfl hne
  | cons event rest =>
    have hstart : (Recording.add { key } event).start = some event.pos := rfl
    change ((rest.foldl Recording.add (Recording.add { key } event)).start).getD {} = c.pos
    rw [Recording.start_foldl_add hstart, Machine.first_of_record hrun rfl]
    rfl

/-- The byte strings that a visit hashes: those of a program that it examines and accepts, and those of the key. -/
inductive Hashes (c : Call) : Bytes → Prop
  | program {p : ProgramRef} (examines : c.Examines p) (valid : p.program.check = .ok ()) :
    Hashes c (writeProgram (some p.program))
  | key {fingerprint : UInt64} (enabled : c.engine.options.disabled = false)
    (found : (c.engine.fingerprint c.program).1 = .ok fingerprint) : Hashes c (loopKeyBytes fingerprint c.pos c.pc)

def Hashed (acts : List Act) (bytes : Bytes) : Prop := ∃ c, .visited c ∈ acts ∧ c.Hashes bytes

theorem Hashed.mono {earlier : List Act} (h : Hashed earlier bytes) (hsub : earlier ⊆ acts) : Hashed acts bytes := by
  obtain ⟨d, hd, hbytes⟩ := h
  exact ⟨d, hsub hd, hbytes⟩

structure Keyed (acts : List Act) (c : Call) (p : ProgramRef) (key : LoopKey) : Prop where
  given : c.program = some p
  portable : p.program.Portable wordLimit
  key_eq : key = loopKey (Program.fingerprint (some p.program)) c.pos c.pc
  program_hashed : Hashed acts (writeProgram (some p.program))
  key_hashed : Hashed acts (loopKeyBytes (Program.fingerprint (some p.program)) c.pos c.pc)

theorem Keyed.mono {earlier : List Act} {p : ProgramRef} (h : Keyed earlier c p key) (hsub : earlier ⊆ acts) :
    Keyed acts c p key :=
  ⟨h.given, h.portable, h.key_eq, h.program_hashed.mono hsub, h.key_hashed.mono hsub⟩

theorem Keyed.same_loop {p q : ProgramRef} (hc : Keyed acts c p key) (hd : Keyed acts d q key)
    (hinj : ∀ a b, Hashed acts a → Hashed acts b → Wire.hash a = Wire.hash b → a = b) :
    p.program = q.program ∧ c.pos = d.pos ∧ c.pc = d.pc := by
  have hkeys := hinj _ _ hc.key_hashed hd.key_hashed (hc.key_eq.symm.trans hd.key_eq)
  obtain ⟨hfingerprint, hpos, hpc⟩ := loopKeyBytes_inj hkeys
  have hbytes := hinj _ _ hc.program_hashed hd.program_hashed hfingerprint
  exact ⟨writeProgram_inj hc.portable hd.portable hbytes, hpos, hpc⟩

def Replays (c : Call) (t : Trace) : Prop :=
  ∃ key, c.key? = some key ∧ (c.engine.tracer.handle key).1.action = .trace t

theorem Replays.cached (h : c.Replays t) :
    ∃ key, c.key? = some key ∧ c.engine.tracer.cache.get? key = some t := by
  obtain ⟨key, hkey, haction⟩ := h
  refine ⟨key, hkey, ?_⟩
  have hhandled := c.engine.tracer.handled key
  generalize c.engine.tracer.handle key = answer at hhandled haction
  cases hhandled with
  | cached found =>
    cases haction
    exact found
  | hot | cold | back | elsewhere => cases haction

end Call

/-- No visit of the history meets a program that has changed since the engine examined it, or one with a list or a name
too long for a 64-bit length. -/
def Orderly (acts : List Act) : Prop :=
  ∀ c earlier, .visited c :: earlier <:+ acts →
    c.Unaltered earlier ∧ ∀ p, c.program = some p → p.program.Portable wordLimit

namespace Engine.History

variable {e : Engine} {o : Options} {session : Session} {acts : List Act} {c d : Call} {key : LoopKey} {t : Trace}

theorem optimize_eq (h : History o session acts e) : e.tracer.optimize = o.optimize := by
  induction h with
  | fresh => rfl
  | attach _ _ ih | forget _ _ ih => exact ih
  | @warm _ e _ traces ih =>
    obtain ⟨_, _, _, hwarm⟩ := e.tracer_warm traces
    rw [hwarm]
    exact ih
  | visit _ visited ih =>
    obtain ⟨_, _, hfollows⟩ := (Call.effect visited).follows
    exact hfollows.optimize.trans ih

theorem of_mem (h : History o session acts e) (hd : .visited d ∈ acts) :
    ∃ earlier, .visited d :: earlier <:+ acts ∧ History o session earlier d.engine := by
  obtain ⟨later, earlier, rfl⟩ := List.append_of_mem hd
  exact ⟨earlier, List.suffix_append _ _, h.of_suffix (List.suffix_append _ _)⟩

theorem yields_of_finishes (h : History o session acts c.engine) (ht : c.Finishes t) :
    ∃ d, .visited d ∈ acts ∧ d.Yields t := by
  obtain ⟨r, busy, _, hcomplete⟩ := ht
  obtain ⟨d, key, log, hd, hbreaks, rfl⟩ := h.left busy
  obtain ⟨hne, rfl⟩ := Tracer.complete_logged_eq_some_iff.mp hcomplete
  obtain ⟨earlier, _, hearlier⟩ := h.of_mem hd
  refine ⟨d, hd, ?_⟩
  -- the trace is optimized when it is finished, which the engine does as it would have done at the time of the crash
  rw [h.optimize_eq, ← hearlier.optimize_eq]
  exact hbreaks.yields hne

theorem yields_of_cached (h : History o session acts e) (unwarmed : ∀ a ∈ acts, a.warms = false)
    (hget : e.tracer.cache.get? key = some t) : ∃ d, .visited d ∈ acts ∧ d.Yields t ∧ t.key = key := by
  induction h with
  | fresh => cases Std.HashMap.getElem?_empty.symm.trans hget
  | attach _ _ ih | forget _ _ ih =>
    obtain ⟨d, hd, hyields⟩ := ih (List.forall_mem_cons.mp unwarmed).2 hget
    exact ⟨d, List.mem_cons_of_mem _ hd, hyields⟩
  | warm => cases (List.forall_mem_cons.mp unwarmed).1
  | @visit acts c v before visited ih =>
    -- the trace was cached before the visit, or the visit has published it
    have hbefore : c.engine.tracer.cache.get? key = some t →
        ∃ d, .visited d ∈ .visited c :: acts ∧ d.Yields t ∧ t.key = key := by
      intro hcached
      obtain ⟨d, hd, hyields⟩ := ih (List.forall_mem_cons.mp unwarmed).2 hcached
      exact ⟨d, List.mem_cons_of_mem _ hd, hyields⟩
    obtain ⟨trace, hpublished, hfollows⟩ := (Call.effect visited).follows
    rw [hfollows.cache] at hget
    cases trace with
    | none => exact hbefore hget
    | some u =>
      rcases before.settled.ordered.get?_insert_cases hget with ⟨rfl, rfl⟩ | hcached
      · rcases (hpublished t).mp rfl with ht | ht
        · exact ⟨c, List.mem_cons_self, ht.yields, rfl⟩
        · obtain ⟨d, hd, hyields⟩ := before.yields_of_finishes ht
          exact ⟨d, List.mem_cons_of_mem _ hd, hyields, rfl⟩
      · exact hbefore hcached

theorem keyed (h : History o session acts c.engine) (unaltered : c.Unaltered acts)
    (portable : ∀ p, c.program = some p → p.program.Portable wordLimit) (found : c.key? = some key) :
    ∃ p, Call.Keyed (.visited c :: acts) c p key := by
  obtain ⟨enabled, fingerprint, hresult, rfl⟩ := Call.key?_eq_some_iff.mp found
  obtain ⟨p, given⟩ := Call.exists_program found
  obtain ⟨hexamine, d, q, hd, hexamines, hsame⟩ := h.fingerprint_eq enabled unaltered given
  obtain ⟨hcheck, rfl⟩ := examine_eq_ok (hexamine.symm.trans (given ▸ hresult))
  -- the visit that hashed the program is the one that examined it, and may be an earlier one
  refine ⟨p, given, portable p given, rfl, ⟨d, hd, ?_⟩, c, List.mem_cons_self, .key enabled hresult⟩
  rw [← hsame] at hcheck ⊢
  exact .program hexamines hcheck

/-- A replayed trace was written down by an earlier visit, at the same place of the same content. -/
theorem replayed_was_recorded (h : History o session acts c.engine) (unwarmed : ∀ a ∈ acts, a.warms = false)
    (orderly : Orderly (.visited c :: acts))
    (hinj : ∀ a b, Call.Hashed (.visited c :: acts) a → Call.Hashed (.visited c :: acts) b →
      Wire.hash a = Wire.hash b → a = b)
    (hreplays : c.Replays t) :
    (∃ p, c.program = some p ∧ c.visit = c.served.replay c.fuel p.program c.pos t c.user c.pc c.cell) ∧
      ∃ d, .visited d ∈ acts ∧ d.Yields t ∧ d.pos = c.pos ∧ d.pc = c.pc ∧
        d.program.map ProgramRef.program = c.program.map ProgramRef.program ∧ t.start = c.pos := by
  obtain ⟨key, found, hget⟩ := hreplays.cached
  obtain ⟨p, given⟩ := Call.exists_program found
  refine ⟨⟨p, given, Call.visit_cached given found hget⟩, ?_⟩
  obtain ⟨d, hd, hyields, rfl⟩ := h.yields_of_cached unwarmed hget
  obtain ⟨earlier, hsuffix, hearlier⟩ := h.of_mem hd
  obtain ⟨unaltered, portable⟩ := orderly c acts (List.suffix_refl _)
  obtain ⟨unaltered', portable'⟩ := orderly d earlier (hsuffix.trans (List.suffix_cons _ _))
  obtain ⟨p, hpresent⟩ := h.keyed unaltered portable found
  obtain ⟨q, hrecorded⟩ := hearlier.keyed unaltered' portable' hyields.found
  have hwritten := hrecorded.mono (hsuffix.trans (List.suffix_cons (.visited c) acts)).subset
  obtain ⟨hprogram, hpos, hpc⟩ := hpresent.same_loop hwritten hinj
  refine ⟨d, hd, hyields, hpos.symm, hpc.symm, ?_, hyields.start.trans hpos.symm⟩
  rw [hrecorded.given, hpresent.given, Option.map_some, Option.map_some, hprogram]

end Engine.History

def brittle : Program where
  table := some
    [some { locals := 4, body := some [.load 2, .const (Value.usize 0), .binary .eq, .sized .skipIf 3,
      .const (Value.func 1), .plain .call, .plain .ret] },
    some { params := -1, body := some [.plain .ret] }]

def brittleKey : LoopKey := loopKey (Program.fingerprint (some brittle)) {} 0

def brittleCall (e : Engine) (cell : UInt64) : Call where
  engine := e
  fuel := 6
  program := some ⟨0, brittle⟩
  pos := {}
  user := []
  pc := 0
  cell

theorem brittle_valid : brittle.check = .ok () := by decide

theorem brittleCall_key {e : Engine} (enabled : e.options.disabled = false) (unknown : e.known[0]? = none)
    (cell : UInt64) : (brittleCall e cell).key? = some brittleKey :=
  Call.key?_of_unknown (p := ⟨0, brittle⟩) enabled rfl unknown brittle_valid

theorem brittleCall_breaks :
    ∃ log, (brittleCall eager 2).Breaks brittleKey log ∧ log.filterMap Event.traced? ≠ [] := by
  obtain ⟨frame, m₀, hseed, hrun⟩ : ∃ frame m₀, Engine.seed brittle {} [] 0 2 {} = .ok frame m₀ ∧
      (m₀.record brittle 6 {}).map (fun r => (r.outcome, (r.log.filterMap Event.traced?).isEmpty)) =
        some (.crash, false) :=
    ⟨_, _, rfl, by decide +kernel⟩
  obtain ⟨⟨outcome, m, log⟩, hrecord, hends⟩ := Option.map_eq_some_iff.mp hrun
  simp only [Prod.mk.injEq, List.isEmpty_eq_false_iff] at hends
  obtain ⟨rfl, hne⟩ := hends
  have hstarts : (brittleCall eager 2).Starts ⟨0, brittle⟩ brittleKey :=
    .of_unknown rfl rfl Std.HashMap.getElem?_empty brittle_valid rfl Std.HashMap.getElem?_empty
      (Profiler.visit_first _)
  exact ⟨log, .crashed hstarts ⟨m₀, hseed, hrecord⟩, hne⟩

theorem brittle_hashes_apart :
    Wire.hash (writeProgram (some brittle)) ≠
      Wire.hash (loopKeyBytes (Program.fingerprint (some brittle)) {} 0) := by decide +kernel

def Brittle (acts : List Act) : Prop :=
  ∀ c, .visited c ∈ acts → ∃ e cell, c = brittleCall e cell ∧ e.known[0]? = none

namespace Brittle

variable {acts : List Act}

theorem orderly (h : Brittle acts) : Orderly acts := by
  intro c earlier hsuffix
  obtain ⟨e, cell, rfl, _⟩ := h c (hsuffix.subset List.mem_cons_self)
  constructor
  · rintro p q d ⟨⟩ hd hq _
    have hmem : .visited d ∈ earlier := (List.takeWhile_sublist _).mem hd
    obtain ⟨e', cell', rfl, _⟩ := h d (hsuffix.subset (List.mem_cons_of_mem _ hmem))
    cases hq
    rfl
  · rintro p ⟨⟩
    exact (by decide : brittle.Portable wordLimit)

theorem hashed {bytes : Bytes} (h : Brittle acts) (hbytes : Call.Hashed acts bytes) :
    bytes = writeProgram (some brittle) ∨
      bytes = loopKeyBytes (Program.fingerprint (some brittle)) {} 0 := by
  obtain ⟨c, hc, hbytes⟩ := hbytes
  obtain ⟨e, cell, rfl, hunknown⟩ := h c hc
  cases hbytes with
  | program examines valid =>
    cases examines.given
    exact .inl rfl
  | key enabled found =>
    have hexamine : (e.fingerprint (some ⟨0, brittle⟩)).1 = Engine.examine brittle :=
      Engine.fingerprint_unknown (p := ⟨0, brittle⟩) hunknown
    obtain ⟨_, heq⟩ := Engine.examine_eq_ok (hexamine.symm.trans found)
    exact .inr (congrArg (loopKeyBytes · {} 0) heq)

theorem hash_inj (h : Brittle acts) (a b : Bytes) (ha : Call.Hashed acts a) (hb : Call.Hashed acts b)
    (heq : Wire.hash a = Wire.hash b) : a = b := by
  rcases h.hashed ha with rfl | rfl
  · rcases h.hashed hb with rfl | rfl
    · rfl
    · exact absurd heq brittle_hashes_apart
  · rcases h.hashed hb with rfl | rfl
    · exact absurd heq.symm brittle_hashes_apart
    · rfl

end Brittle

theorem brittleCall_crashes : ∃ (e : Engine) (r : Recording) (t : Trace),
    Engine.History { threshold := 0 } default [.visited (brittleCall eager 2)] e ∧ e.tracer.recording = some r ∧
      r.key = brittleKey ∧ (e.tracer.complete r).1 = some t ∧ e.tracer.cache = {} := by
  obtain ⟨log, hbreaks, hne⟩ := brittleCall_breaks
  exact ⟨_, _, _, .visit .fresh hbreaks.visit_eq, rfl, Recording.key_foldl_add _ log,
    Tracer.complete_logged_eq_some_iff.mpr ⟨hne, rfl⟩, rfl⟩

theorem brittleCall_finishes {e : Engine} {r : Recording} {t : Trace} (hsettled : e.Settled)
    (enabled : e.options.disabled = false) (unknown : e.known[0]? = none) (busy : e.tracer.recording = some r)
    (hkey : r.key = brittleKey) (hcomplete : (e.tracer.complete r).1 = some t) (hempty : e.tracer.cache = {}) :
    ∃ e', (brittleCall e 2).visit = some ⟨e', .ok 0 2⟩ ∧ e'.tracer.cache.get? brittleKey = some t := by
  have hreturns : (brittleCall e 2).Returns r := by
    refine ⟨hkey ▸ brittleCall_key enabled unknown 2, ?_⟩
    change e.tracer.cache.get? r.key = none
    rw [hempty]
    exact Std.HashMap.getElem?_empty
  have hvisit := hreturns.visit_eq busy
  have hcached := Call.cached_of_published hsettled hvisit (.inr ⟨r, busy, hreturns, hcomplete⟩)
  have htkey : t.key = brittleKey := (congrArg Trace.key (Tracer.eq_of_complete hcomplete)).trans hkey
  exact ⟨_, hvisit, htkey ▸ hcached⟩

def brittleActs (e : Engine) : List Act :=
  [.forgot 0, .visited (brittleCall e 2), .forgot 0, .visited (brittleCall eager 2)]

/-- The recording of a visit that crashed is finished by the next visit, and replayed by the third. -/
theorem replayed_was_recorded_brittle :
    ∃ (e₁ e₂ : Engine) (t : Trace), (Act.visited (brittleCall eager 2)).crashes = true ∧
      Engine.History { threshold := 0 } default (brittleActs e₁) e₂ ∧ (brittleCall e₂ 0).Replays t ∧
      ∃ d, .visited d ∈ brittleActs e₁ ∧ d.Yields t ∧ d.program.map ProgramRef.program = some brittle ∧
        t.start = {} := by
  obtain ⟨log, hbreaks, _⟩ := brittleCall_breaks
  obtain ⟨e, r, t, hhistory, busy, hkey, hcomplete, hempty⟩ := brittleCall_crashes
  have hfirst := hhistory.forget 0
  obtain ⟨e', hvisit, hget⟩ := brittleCall_finishes (e := e.forget 0) hfirst.settled
    (congrArg Options.disabled hfirst.options_eq) Std.HashMap.getElem?_erase_self busy hkey hcomplete hempty
  have hsecond : Engine.History { threshold := 0 } default (brittleActs (e.forget 0)) (e'.forget 0) :=
    .forget (.visit hfirst hvisit) 0
  have hforgotten : (e'.forget 0).known[0]? = none := Std.HashMap.getElem?_erase_self
  have hreplays : (brittleCall (e'.forget 0) 0).Replays t := by
    refine ⟨brittleKey, brittleCall_key (congrArg Options.disabled hsecond.options_eq) hforgotten 0, ?_⟩
    have hhandle := Tracer.handle_cached (t := (e'.forget 0).tracer) hget
    exact congrArg (fun r => r.1.action) hhandle
  have hbrittle : Brittle (.visited (brittleCall (e'.forget 0) 0) :: brittleActs (e.forget 0)) := by
    intro c hc
    obtain rfl | rfl | rfl : c = brittleCall (e'.forget 0) 0 ∨ c = brittleCall (e.forget 0) 2 ∨
        c = brittleCall eager 2 := by simpa [brittleActs] using hc
    · exact ⟨_, _, rfl, hforgotten⟩
    · exact ⟨_, _, rfl, Std.HashMap.getElem?_erase_self⟩
    · exact ⟨_, _, rfl, Std.HashMap.getElem?_empty⟩
  obtain ⟨_, d, hd, hyields, _, _, hprogram, hstart⟩ := Engine.History.replayed_was_recorded
    (c := brittleCall (e'.forget 0) 0) hsecond (by simp [brittleActs, Act.warms]) hbrittle.orderly
    hbrittle.hash_inj hreplays
  exact ⟨e.forget 0, e'.forget 0, t, hbreaks.crashes, hsecond, hreplays, d, hd, hyields, hprogram, hstart⟩

end HotLoop
