import HotLoop.Engine.MergePoint

namespace HotLoop

structure Call where
  engine : Engine
  fuel : Nat
  program : Option ProgramRef
  pos : Position
  user : List UInt64
  pc : UInt64
  cell : UInt64

def Call.visit (c : Call) : Option Engine.Visit := c.engine.mergePoint c.fuel c.program c.pos c.user c.pc c.cell

inductive Act
  | visited (c : Call)
  | warmed (e : Engine) (traces : List Trace)
  | forgot (id : Nat)
  | attached (journal : Option (Trace → Bool))

namespace Act

def crashes : Act → Bool
  | visited c => c.visit.any fun v => v.answer = .crash
  | _ => false

def visits : Act → Nat
  | visited _ => 1
  | _ => 0

def warms : Act → Bool
  | warmed .. => true
  | _ => false

theorem crashes_visited {c : Call} {v : Engine.Visit} (h : c.visit = some v) :
    (visited c).crashes = decide (v.answer = .crash) := by
  simp only [crashes, h, Option.any_some]

end Act

def total {α : Type} (f : α → Nat) : List α → Nat
  | [] => 0
  | a :: rest => f a + total f rest

namespace Engine

/-- The engines that a caller can have, with what was done to them, the latest first. A visit that crashed leaves an
engine as well, for a caller that goes on after it. -/
inductive History (o : Options) (session : Session) : List Act → Engine → Prop
  | fresh : History o session [] (ofOptions o session)
  | attach {acts : List Act} {e : Engine} (before : History o session acts e) (journal : Option (Trace → Bool)) :
    History o session (.attached journal :: acts) { e with journal }
  | forget {acts : List Act} {e : Engine} (before : History o session acts e) (id : Nat) :
    History o session (.forgot id :: acts) (e.forget id)
  | warm {acts : List Act} {e : Engine} (before : History o session acts e) (traces : List Trace) :
    History o session (.warmed e traces :: acts) (e.warm traces)
  | visit {acts : List Act} {c : Call} {v : Visit} (before : History o session acts c.engine)
    (visited : c.visit = some v) : History o session (.visited c :: acts) v.engine

theorem History.of_suffix {o : Options} {session : Session} {acts earlier : List Act} {e : Engine} {c : Call}
    (h : History o session acts e) (hsuffix : .visited c :: earlier <:+ acts) :
    History o session earlier c.engine := by
  induction h with
  | fresh => cases List.suffix_nil.mp hsuffix
  | attach _ _ ih | forget _ _ ih | warm _ _ ih =>
    rcases List.suffix_cons_iff.mp hsuffix with heq | hsuffix
    · cases heq
    · exact ih hsuffix
  | visit before _ ih =>
    rcases List.suffix_cons_iff.mp hsuffix with heq | hsuffix
    · cases heq
      exact before
    · exact ih hsuffix

end Engine

end HotLoop
