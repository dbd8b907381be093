import HotLoop.Proofs.DeadStore.Remainder
import HotLoop.Proofs.Heights
import HotLoop.Proofs.Simulation

namespace HotLoop

namespace DeadStore

def staying (code : List Instr) : List Instr := code.filter fun i => !isVolatile i

def rises : List Instr → List Int
  | [] => [0]
  | i :: rest => if isVolatile i then (rises rest).modifyHead (i.rise + ·) else 0 :: rises rest

variable {live : List Int64} {i : Instr} {kept code code' : List Instr}

theorem rises_cons_volatile (hi : isVolatile i) (rest : List Instr) :
    rises (i :: rest) = (rises rest).modifyHead (i.rise + ·) := by
  rw [rises, if_pos hi]

theorem rises_cons_staying (hi : ¬isVolatile i) (rest : List Instr) : rises (i :: rest) = 0 :: rises rest := by
  rw [rises, if_neg hi]

theorem exists_rises (code : List Instr) : ∃ r rs, rises code = r :: rs := by
  induction code with
  | nil => exact ⟨0, [], rfl⟩
  | cons i rest ih =>
    obtain ⟨r, rs, hrest⟩ := ih
    by_cases hi : isVolatile i
    · exact ⟨i.rise + r, rs, by rw [rises_cons_volatile hi, hrest, List.modifyHead_cons]⟩
    · exact ⟨0, rises rest, rises_cons_staying hi rest⟩

theorem staying_append (code code' : List Instr) : staying (code ++ code') = staying code ++ staying code' :=
  List.filter_append code code'

def joinRises : List Int → List Int → List Int
  | [], ys => ys
  | [x], ys => ys.modifyHead (x + ·)
  | x :: y :: xs, ys => x :: joinRises (y :: xs) ys

theorem joinRises_modifyHead (k x : Int) (xs ys : List Int) :
    joinRises ((x :: xs).modifyHead (k + ·)) ys = (joinRises (x :: xs) ys).modifyHead (k + ·) := by
  cases xs with
  | nil => simp [joinRises, Function.comp_def, Int.add_assoc]
  | cons y xs => rfl

theorem rises_append (code code' : List Instr) : rises (code ++ code') = joinRises (rises code) (rises code') := by
  induction code with
  | nil =>
    obtain ⟨r, rs, hcode⟩ := exists_rises code'
    simp [rises, joinRises, hcode]
  | cons i rest ih =>
    obtain ⟨r, rs, hrest⟩ := exists_rises rest
    rw [List.cons_append]
    by_cases hi : isVolatile i
    · rw [rises_cons_volatile hi, rises_cons_volatile hi, ih, hrest, joinRises_modifyHead]
    · rw [rises_cons_staying hi, rises_cons_staying hi, ih, hrest, joinRises]

structure SameOutline (code code' : List Instr) : Prop where
  instrs : staying code' = staying code
  stretches : rises code' = rises code

theorem SameOutline.flatten (h : SameOutline code code') (laps : Nat) :
    SameOutline (List.replicate laps code).flatten (List.replicate laps code').flatten := by
  induction laps with
  | zero => exact ⟨rfl, rfl⟩
  | succ laps ih =>
    rw [List.replicate_succ, List.replicate_succ, List.flatten_cons, List.flatten_cons]
    constructor
    · rw [staying_append, staying_append, h.instrs, ih.instrs]
    · rw [rises_append, rises_append, h.stretches, ih.stretches]

section Pass

variable {prog : Program} {m m' m₁ m₁' : Machine} {calls : List Int} {i' : Instr} {k : Nat}

def taken (prog : Program) : List Instr → Machine → List Int
  | [], _ => []
  | i :: rest, m =>
    match Lap.perform prog i 0 m with
    | .again s =>
      if i.code = .call then (m.stack.length - s.machine.stack.length) :: taken prog rest s.machine
      else taken prog rest s.machine
    | .done _ => []

def total (xs : List Int) : Int := xs.foldr (· + ·) 0

end Pass

end DeadStore

end HotLoop
