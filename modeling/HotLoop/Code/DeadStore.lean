import HotLoop.Code.Instr

/-!
Removal of dead stores from straight-line code, from the last instruction to the first.

- A store whose value is never loaded becomes a pop.
- A store followed at once by the only load of its value goes away together with that load.
- An empty record that is popped at once goes away together with the pop.

Guards, calls and returns count as reading every live slot. Code with jumps is left alone, since removing
instructions would shift their targets.
-/

namespace HotLoop.DeadStore

/-- Instructions at which every live slot counts as read. -/
def isBarrier (i : Instr) : Bool := i.code = .guard || i.code.isCall || i.code = .ret

/-- How often the value of each slot is read in the code passed so far. A slot that is not listed is not read. -/
abbrev Counts := List (Int64 × Nat)

namespace Counts

def get (slot : Int64) : Counts → Nat
  | [] => 0
  | p :: rest => if p.1 = slot then p.2 else get slot rest

def set (slot : Int64) (n : Nat) : Counts → Counts
  | [] => [(slot, n)]
  | p :: rest => if p.1 = slot then (slot, n) :: rest else p :: set slot n rest

end Counts

def markLive (live : List Int64) (counts : Counts) : Counts :=
  live.foldl (fun counts slot => if counts.get slot = 0 then counts.set slot 1 else counts) counts

structure Pass where
  counts : Counts
  kept : List Instr

def putStore (count : Nat) (i : Instr) (kept : List Instr) : List Instr :=
  match count, kept with
  | 0, _ => Instr.pop :: kept
  | 1, next :: rest => if next.code = .load ∧ next.n = i.n then rest else i :: kept
  | _, _ => i :: kept

def putEmpty (i : Instr) : List Instr → List Instr
  | [] => [i]
  | next :: rest => if next.code = .pop then rest else i :: next :: rest

namespace Pass

def start (live : List Int64) : Pass := { counts := markLive live [], kept := [] }

def step (live : List Int64) (i : Instr) (s : Pass) : Pass :=
  if i.code = .load then { counts := s.counts.set i.n (s.counts.get i.n + 1), kept := i :: s.kept }
  else if i.code = .store then { counts := s.counts.set i.n 0, kept := putStore (s.counts.get i.n) i s.kept }
  else if i.code = .tuple ∧ i.n = 0 then { s with kept := putEmpty i s.kept }
  else if isBarrier i then { counts := markLive live s.counts, kept := i :: s.kept }
  else { s with kept := i :: s.kept }

end Pass

def eliminate (code : List Instr) (live : List Int64) : List Instr :=
  if code.any fun i => i.code.isJump then code else (code.foldr (Pass.step live) (.start live)).kept

def slots (code : List Instr) : List Int64 :=
  code.foldl (fun seen i =>
    if (i.code = .load ∨ i.code = .store) ∧ i.n ∉ seen then seen ++ [i.n] else seen) []

end HotLoop.DeadStore
