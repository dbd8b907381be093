import HotLoop.Code.Program

namespace HotLoop

inductive InvalidProgram
  | absentProgram
  | absentFunction (index : Nat)
  | tooManyParams (index : Nat) (params locals : Int64)
  | jumpOut (c : Opcode) (pos : Position)
  | jumpBefore (c : Opcode) (pos : Position)
  | slot (c : Opcode) (pos : Position) (slot locals : Int64)
  | reference (c : Opcode) (pos : Position) (index : Int64)
  | constant (pos : Position) (k : Kind)
  | guard (pos : Position)
  | unknown (c : Opcode) (pos : Position)
deriving DecidableEq, Repr

def InvalidProgram.message (e : InvalidProgram) : String :=
  "invalid program: " ++
    match e with
    | absentProgram => "nil program"
    | absentFunction i => "function " ++ toString i ++ " is nil"
    | tooManyParams i p l =>
      "function " ++ toString i ++ " has " ++ Text.decimal p ++ " params but " ++ Text.decimal l ++ " locals"
    | jumpOut c pos => c.name ++ " at " ++ pos.text ++ " jumps out of function"
    | jumpBefore c pos => c.name ++ " at " ++ pos.text ++ " jumps before function start"
    | slot c pos s l =>
      c.name ++ " at " ++ pos.text ++ " uses slot " ++ Text.decimal s ++ " of " ++ Text.decimal l
    | reference c pos i => c.name ++ " at " ++ pos.text ++ " references function " ++ Text.decimal i
    | constant pos k => "constant at " ++ pos.text ++ " is a " ++ k.name
    | guard pos => "guard at " ++ pos.text ++ " outside a trace"
    | unknown c pos => "unknown opcode " ++ c.byteText ++ " at " ++ pos.text

namespace Program

def checkInstr (p : Program) (f : Function) (pos : Position) (i : Instr) : Except InvalidProgram Unit :=
  match i.code with
  | .skip | .skipIf =>
    if wordLength f.instrs ≤ pos.pc + i.n ∨ i.n < 0 then .error (.jumpOut i.code pos) else .ok ()
  | .jumpBack | .jumpBackIf =>
    if pos.pc < i.n ∨ i.n < 0 then .error (.jumpBefore i.code pos) else .ok ()
  | .load | .store =>
    if i.n < 0 ∨ f.locals ≤ i.n then .error (.slot i.code pos i.n f.locals) else .ok ()
  | .static =>
    if (p.function? i.n).isNone then .error (.reference i.code pos i.n) else .ok ()
  | .const =>
    if i.value.isPrimitive then .ok () else .error (.constant pos i.value.kind)
  | .guard => .error (.guard pos)
  | .other n => .error (.unknown (.other n) pos)
  | _ => .ok ()

def checkCode (p : Program) (f : Function) (index pc : Nat) : List Instr → Except InvalidProgram Unit
  | [] => .ok ()
  | i :: rest => do
    p.checkInstr f ⟨Int64.ofNat index, Int64.ofNat pc⟩ i
    p.checkCode f index (pc + 1) rest

def checkFunction (p : Program) (index : Nat) : Option Function → Except InvalidProgram Unit
  | none => .error (.absentFunction index)
  | some f =>
    if f.locals < f.params then .error (.tooManyParams index f.params f.locals)
    else p.checkCode f index 0 f.instrs

def checkEntries (p : Program) (index : Nat) : List (Option Function) → Except InvalidProgram Unit
  | [] => .ok ()
  | f :: rest => do
    p.checkFunction index f
    p.checkEntries (index + 1) rest

def check (p : Program) : Except InvalidProgram Unit := p.checkEntries 0 p.entries

end Program

end HotLoop
