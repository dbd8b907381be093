import HotLoop.Engine.MergePoint

/-!
What an engine remembers of programs makes no difference. A visit reads its memory only for the fingerprint of the
program, and all else that it does commutes with a change of the memory. So an engine gives the answers and has the
traces and counts of one that examines the program on every visit, as long as no program is visited that was altered
since it was last visited and not forgotten. The memory itself stays within its limit.
-/

namespace HotLoop

structure Arrival where
  fuel : Nat
  program : Option ProgramRef
  pos : Position
  user : List UInt64
  pc : UInt64
  cell : UInt64

inductive Deed
  | visit (a : Arrival)
  | forget (id : Nat)

namespace Engine

abbrev Memory := Std.HashMap Nat (Except InvalidProgram UInt64)

def withKnown (e : Engine) (known : Memory) : Engine := { e with known }

def Visit.withKnown (v : Visit) (known : Memory) : Visit := { v with engine := v.engine.withKnown known }

variable {e : Engine} {a : Arrival} {known : Memory} {id : Nat} {r : Except InvalidProgram UInt64} {p : ProgramRef}

def enter (e : Engine) (key : LoopKey) (prog : Program) (a : Arrival) : Option Visit :=
  let (decision, tracer) := e.tracer.handle key
  let e := publish { e with tracer } decision.finished
  match decision.action with
  | .none => some ⟨e, .ok a.pc a.cell⟩
  | .startTrace => e.record a.fuel prog a.pos a.user a.pc a.cell
  | .trace t => e.replay a.fuel prog a.pos t a.user a.pc a.cell

def visit (e : Engine) (a : Arrival) : Option Visit := e.mergePoint a.fuel a.program a.pos a.user a.pc a.cell

def visitFinding (e : Engine) (found : Except InvalidProgram UInt64) (a : Arrival) : Option Visit :=
  let e := { e with visits := e.visits + 1 }
  if e.options.disabled then some ⟨e, .ok a.pc a.cell⟩
  else
    match found, a.program with
    | .error err, _ => some (e.failed a.pc a.cell (.invalid err))
    | .ok _, none => some ⟨e, .ok a.pc a.cell⟩
    | .ok fingerprint, some p => e.enter (loopKey fingerprint a.pos a.pc) p.program a

def visitAfresh (e : Engine) (a : Arrival) : Option Visit :=
  e.visitFinding (a.program.elim (.error .absentProgram) fun p => examine p.program) a

section Commutation

theorem publish_withKnown (e : Engine) (known : Memory) (trace : Option Trace) :
    (e.withKnown known).publish trace = (e.publish trace).withKnown known := by
  rcases e with ⟨_, _, _, _ | _⟩ <;> cases trace <;> rfl

theorem finishRecording_withKnown (e : Engine) (known : Memory) :
    (e.withKnown known).finishRecording = e.finishRecording.withKnown known := by
  have htracer : (e.withKnown known).tracer = e.tracer := rfl
  unfold finishRecording
  rw [htracer]
  cases e.tracer.finish with
  | error => rfl
  | ok finished => exact publish_withKnown { e with tracer := finished.2 } known finished.1

theorem endRecording_withKnown (e : Engine) (known : Memory) (exit : Exit) (log : List Event) :
    (e.withKnown known).endRecording exit log = (e.endRecording exit log).withKnown known := by
  unfold endRecording
  dsimp only
  split
  · exact finishRecording_withKnown { e with tracer := e.tracer.recordLog log } known
  · rfl

variable (e : Engine) (known : Memory) (fuel : Nat) (prog : Program) (pos : Position) (user : List UInt64)
  (pc cell : UInt64)

theorem record_withKnown : (e.withKnown known).record fuel prog pos user pc cell =
    (e.record fuel prog pos user pc cell).map (·.withKnown known) := by
  unfold record
  cases seed prog pos user pc cell {} with
  | error stop m => cases stop <;> rfl
  | ok frame m =>
    dsimp only
    rw [Option.map_map]
    congr 1
    funext run
    rcases run with ⟨exit | f | _, m', log⟩
    · have hended := endRecording_withKnown { e with recordings := e.recordings + 1 } known exit log
      dsimp only [Function.comp_apply]
      cases results frame m' with
      | ok r => exact congrArg (Visit.mk · (.ok r.1 r.2)) hended
      | fault f => exact congrArg (·.failedRecording pc cell f) hended
      | crash => exact congrArg (Visit.mk · .crash) hended
    · rfl
    · rfl

theorem replay_withKnown (t : Trace) : (e.withKnown known).replay fuel prog pos t user pc cell =
    (e.replay fuel prog pos t user pc cell).map (·.withKnown known) := by
  unfold replay
  cases seed prog pos user pc cell {} with
  | error stop m => cases stop <;> rfl
  | ok frame m =>
    dsimp only
    cases m.replay prog fuel t.instrs with
    | none => rfl
    | some run =>
      rcases run with ⟨guard | f | _, m', log⟩
      · dsimp only [Option.bind_eq_bind, Option.bind_some]
        cases m'.finishIteration prog fuel guard.recovery pos with
        | none => rfl
        | some rest =>
          rcases rest with ⟨exit | f | _, m'', log'⟩
          · dsimp only [Option.bind_some]
            cases results frame m'' <;> rfl
          · rfl
          · rfl
      · rfl
      · rfl

end Commutation

theorem enter_withKnown (e : Engine) (known : Memory) (key : LoopKey) (prog : Program) (a : Arrival) :
    (e.withKnown known).enter key prog a = (e.enter key prog a).map (·.withKnown known) := by
  have hpublish := publish_withKnown { e with tracer := (e.tracer.handle key).2 } known (e.tracer.handle key).1.finished
  have htracer : (e.withKnown known).tracer = e.tracer := rfl
  simp only [enter, htracer]
  cases (e.tracer.handle key).1.action with
  | none => exact congrArg (fun e => some (Visit.mk e (.ok a.pc a.cell))) hpublish
  | startTrace =>
    exact (congrArg (·.record a.fuel prog a.pos a.user a.pc a.cell) hpublish).trans (record_withKnown ..)
  | trace t =>
    exact (congrArg (·.replay a.fuel prog a.pos t a.user a.pc a.cell) hpublish).trans (replay_withKnown ..)

theorem visitFinding_withKnown (e : Engine) (known : Memory) (found : Except InvalidProgram UInt64) (a : Arrival) :
    (e.withKnown known).visitFinding found a = (e.visitFinding found a).map (·.withKnown known) := by
  have hoptions : (e.withKnown known).options = e.options := rfl
  simp only [visitFinding, hoptions]
  cases e.options.disabled with
  | true => rfl
  | false =>
    cases found with
    | error err => rfl
    | ok fingerprint =>
      cases a.program with
      | none => rfl
      | some p => exact enter_withKnown { e with visits := e.visits + 1 } known _ p.program a

def remembered (known : Memory) (p : ProgramRef) : Memory :=
  match known[p.id]? with
  | some _ => known
  | none => (if knownLimit ≤ known.size then {} else known).insert p.id (examine p.program)

theorem fingerprint_some (e : Engine) (p : ProgramRef) :
    e.fingerprint (some p) = (e.known[p.id]?.getD (examine p.program), e.withKnown (remembered e.known p)) := by
  cases hknown : e.known[p.id]? <;> simp only [fingerprint, remembered, hknown, withKnown, Option.getD]

theorem getElem?_remembered (h : (remembered known p)[id]? = some r) :
    known[id]? = some r ∨ p.id = id ∧ r = examine p.program ∧ known[p.id]? = none := by
  unfold remembered at h
  split at h
  · exact .inl h
  · next hunknown =>
    rw [Std.HashMap.getElem?_insert] at h
    split at h
    · next hid => exact .inr ⟨by simpa using hid, (Option.some.inj h).symm, hunknown⟩
    · split at h
      · cases Std.HashMap.getElem?_empty.symm.trans h
      · exact .inl h

theorem size_remembered_le (h : known.size ≤ knownLimit) (p : ProgramRef) :
    (remembered known p).size ≤ knownLimit := by
  unfold remembered
  split
  · exact h
  · apply Nat.le_trans Std.HashMap.size_insert_le
    split
    · simp [knownLimit]
    · omega

def learned (e : Engine) (a : Arrival) : Memory :=
  if e.options.disabled then e.known
  else
    match a.program with
    | none => e.known
    | some p => remembered e.known p

theorem visit_eq_visitFinding (e : Engine) (a : Arrival) :
    e.visit a = (e.visitFinding
      (a.program.elim (.error .absentProgram) fun p => e.known[p.id]?.getD (examine p.program)) a).map
        (·.withKnown (e.learned a)) := by
  unfold visit mergePoint visitFinding learned
  dsimp only
  cases e.options.disabled with
  | true => rfl
  | false =>
    cases a.program with
    | none => rfl
    | some p =>
      simp only [fingerprint_some, Option.elim_some]
      cases e.known[p.id]?.getD (examine p.program) with
      | error err => rfl
      | ok fingerprint =>
        exact enter_withKnown { e with visits := e.visits + 1 } (remembered e.known p) _ p.program a

theorem known_visit {v : Visit} (h : e.visit a = some v) : v.engine.known = e.learned a := by
  rw [visit_eq_visitFinding, Option.map_eq_some_iff] at h
  obtain ⟨w, _, rfl⟩ := h
  rfl

theorem visit_eq_visitAfresh (h : ∀ p r, a.program = some p → e.known[p.id]? = some r → r = examine p.program) :
    e.visit a = (e.visitAfresh a).map (·.withKnown (e.learned a)) := by
  rw [visit_eq_visitFinding, visitAfresh]
  cases hprogram : a.program with
  | none => rfl
  | some p =>
    have hfound : e.known[p.id]?.getD (examine p.program) = examine p.program := by
      cases hknown : e.known[p.id]? with
      | none => rfl
      | some r => exact h p r hprogram hknown
    rw [Option.elim_some, Option.elim_some, hfound]

theorem getElem?_learned (h : (e.learned a)[id]? = some r) :
    e.known[id]? = some r ∨
      ∃ p, a.program = some p ∧ p.id = id ∧ r = examine p.program ∧ e.options.disabled = false ∧
        e.known[p.id]? = none := by
  unfold learned at h
  split at h
  · exact .inl h
  · next hon =>
    split at h
    · exact .inl h
    · next p hprogram =>
      rcases getElem?_remembered h with hknown | ⟨hid, hexamine, hunknown⟩
      · exact .inl hknown
      · exact .inr ⟨p, hprogram, hid, hexamine, by simpa using hon, hunknown⟩

theorem size_learned_le (h : e.known.size ≤ knownLimit) (a : Arrival) : (e.learned a).size ≤ knownLimit := by
  unfold learned
  split
  · exact h
  · split
    · exact h
    · exact size_remembered_le h _

end Engine

def Deed.next? (id : Nat) : List Deed → Option Program
  | [] => none
  | .forget i :: rest => if i = id then none else next? id rest
  | .visit a :: rest =>
    match a.program with
    | none => next? id rest
    | some p => if p.id = id then some p.program else next? id rest

/-- Every program is visited in the content of its last visit, or was forgotten in between. -/
def Deed.Careful : List Deed → Prop
  | [] => True
  | .forget _ :: rest => Careful rest
  | .visit a :: rest => (∀ p ∈ a.program, ∀ content ∈ next? p.id rest, content = p.program) ∧ Careful rest

instance Deed.decidableCareful : DecidablePred Deed.Careful
  | [] => .isTrue trivial
  | .forget _ :: rest => decidableCareful rest
  | .visit a :: rest =>
    have := decidableCareful rest
    inferInstanceAs (Decidable ((∀ p ∈ a.program, ∀ content ∈ next? p.id rest, content = p.program) ∧ Careful rest))

theorem Deed.Careful.next?_visit {a : Arrival} {id : Nat} {content : Program} {deeds : List Deed}
    (careful : Careful (.visit a :: deeds)) (h : next? id deeds = some content) :
    next? id (.visit a :: deeds) = some content := by
  unfold next?
  split
  · exact h
  · next p hprogram =>
    split
    · next hid => rw [careful.1 p hprogram content (hid ▸ h)]
    · exact h

namespace Engine

variable {e : Engine} {a : Arrival} {id : Nat} {deeds : List Deed}

def run (visit : Engine → Arrival → Option Visit) (forget : Engine → Nat → Engine) :
    Engine → List Deed → List (Engine × Option Answer)
  | _, [] => []
  | e, .forget id :: rest => (forget e id, none) :: run visit forget (forget e id) rest
  | e, .visit a :: rest =>
    match visit e a with
    | none => []
    | some v => (v.engine, some v.answer) :: run visit forget v.engine rest

/-- What is remembered is true of the programs in the content in which they are visited next. -/
def Recalls (known : Memory) (deeds : List Deed) : Prop :=
  ∀ id r content, known[id]? = some r → Deed.next? id deeds = some content → r = examine content

theorem recalls_empty (deeds : List Deed) : Recalls {} deeds := by
  intro id r content hr
  cases Std.HashMap.getElem?_empty.symm.trans hr

theorem Recalls.forget (h : Recalls e.known (.forget id :: deeds)) : Recalls (e.forget id).known deeds := by
  intro i r content hr hnext
  rw [Engine.forget, Std.HashMap.getElem?_erase] at hr
  split at hr
  · cases hr
  · next hid =>
    have hne : id ≠ i := by simpa using hid
    exact h i r content hr (by rw [Deed.next?, if_neg hne, hnext])

theorem Recalls.visit (h : Recalls e.known (.visit a :: deeds)) (careful : Deed.Careful (.visit a :: deeds)) :
    Recalls (e.learned a) deeds := by
  intro i r content hr hnext
  rcases getElem?_learned hr with hold | ⟨p, hprogram, rfl, rfl, _⟩
  · exact h i r content hold (careful.next?_visit hnext)
  · rw [careful.1 p hprogram content hnext]

theorem run_unaware (h : Recalls e.known deeds) (careful : Deed.Careful deeds) :
    (run visit forget e deeds).map (fun r => (r.1.withKnown {}, r.2)) =
      run visitAfresh (fun e _ => e) (e.withKnown {}) deeds := by
  induction deeds generalizing e with
  | nil => rfl
  | cons deed rest ih =>
    cases deed with
    | forget id => exact congrArg _ (ih h.forget careful)
    | visit a =>
      -- the content in which the program is visited next is the one that it has now
      have htruth : ∀ p r, a.program = some p → e.known[p.id]? = some r → r = examine p.program := by
        intro p r hprogram hr
        exact h p.id r p.program hr (by simp [Deed.next?, hprogram])
      have hafresh : (e.withKnown {}).visitAfresh a = (e.visitAfresh a).map (·.withKnown {}) :=
        visitFinding_withKnown e {} _ a
      rw [run, run, visit_eq_visitAfresh htruth, hafresh]
      cases e.visitAfresh a with
      | none => rfl
      | some v => exact congrArg _ (ih (e := v.engine.withKnown (e.learned a)) (h.visit careful) careful.2)

theorem size_known_run (h : e.known.size ≤ knownLimit) :
    ∀ r ∈ run visit forget e deeds, r.1.known.size ≤ knownLimit := by
  induction deeds generalizing e with
  | nil => exact List.forall_mem_nil _
  | cons deed rest ih =>
    cases deed with
    | forget id =>
      have hforgot : (e.forget id).known.size ≤ knownLimit := Nat.le_trans Std.HashMap.size_erase_le h
      exact List.forall_mem_cons.mpr ⟨hforgot, ih hforgot⟩
    | visit a =>
      rw [run]
      cases hv : e.visit a with
      | none => exact List.forall_mem_nil _
      | some v =>
        have hlearned : v.engine.known.size ≤ knownLimit := by
          rw [known_visit hv]
          exact size_learned_le h a
        exact List.forall_mem_cons.mpr ⟨hlearned, ih hlearned⟩

/-- Through any calls that forget a program once it was altered, an engine that starts without memory has the answers,
the traces and the counts of an engine that examines the program on every visit and has nothing to forget. Through any
calls at all, it remembers no more than 64 programs. -/
theorem memory_unseen (e : Engine) (deeds : List Deed) :
    (Deed.Careful deeds → (run visit forget (e.withKnown {}) deeds).map (fun r => (r.1.withKnown {}, r.2)) =
      run visitAfresh (fun e _ => e) (e.withKnown {}) deeds) ∧
    ∀ r ∈ run visit forget (e.withKnown {}) deeds, r.1.known.size ≤ 64 :=
  ⟨run_unaware (recalls_empty deeds), size_known_run (Nat.zero_le knownLimit)⟩

def leaf : Program where
  table := some [some { locals := 4, body := some [.plain .ret] }]

def call (id : Nat) (content : Program) : Deed := .visit ⟨1, some ⟨id, content⟩, {}, [], 0, 0⟩

def tour : List Deed :=
  (List.range 65).map (call · leaf) ++ [call 0 leaf, .forget 0, call 0 {}, call 64 leaf]

theorem memory_unseen_tour : Deed.Careful tour ∧
    (run visit forget (ofOptions {} default) tour).map (fun r => (r.1.withKnown {}, r.2)) =
      run visitAfresh (fun e _ => e) (ofOptions {} default) tour ∧
    ∀ r ∈ run visit forget (ofOptions {} default) tour, r.1.known.size ≤ 64 := by
  have hcareful : Deed.Careful tour := by decide +kernel
  obtain ⟨hsame, hsize⟩ := memory_unseen (ofOptions {} default) tour
  exact ⟨hcareful, hsame hcareful, hsize⟩

end Engine

end HotLoop
