import HotLoop.Code.Check
import HotLoop.Wire.Field

namespace HotLoop

open Wire

def Position.toItem (p : Position) : Item :=
  .record [(1, Item.ofInt64 p.func), (2, Item.ofInt64 p.pc)]

def Position.ofItem? (i : Item) : Option Position := do
  let es ← i.entries?
  return ⟨← Item.field? 0 Item.signed? 1 es, ← Item.field? 0 Item.signed? 2 es⟩

def Guard.toItem (g : Guard) : Item :=
  .record [(1, Item.ofBool g.expected), (2, g.recovery.toItem)]

def Guard.ofItem? (i : Item) : Option Guard := do
  let es ← i.entries?
  return ⟨← Item.field? false Item.bool? 1 es, ← Item.field? {} Position.ofItem? 2 es⟩

def nonzero (n : Nat) : Option Item := if n = 0 then none else some (.uint (UInt64.ofNat n))

def Value.toItem (v : Value) : Item :=
  .record [
    (1, Item.uint v.kind.toByte.toUInt64),
    (2, if v.int = 0 then none else Item.ofInt64 v.int),
    (3, nonzero v.uint.toNat),
    (4, if v.bool then Item.ofBool true else none),
    (5, nonzero v.cell.toNat),
    (6, if v.fields = [] then none else Item.array (v.fields.map fun c => .uint c.toUInt64))]

def byte? (i : Item) : Option UInt8 := (i.unsigned? 8).map UInt8.ofNat

def cell? (i : Item) : Option CellId := (i.unsigned? 32).map UInt32.ofNat

def Value.ofItem? (i : Item) : Option Value := do
  let es ← i.entries?
  return {
    kind := Kind.ofByte (← Item.field? 0 byte? 1 es)
    int := ← Item.field? 0 Item.signed? 2 es
    uint := UInt64.ofNat (← Item.field? 0 (Item.unsigned? 64) 3 es)
    bool := ← Item.field? false Item.bool? 4 es
    cell := ← Item.field? 0 cell? 5 es
    fields := (← Item.field? none (Item.list? cell?) 6 es).getD [] }

def Instr.toItem (i : Instr) : Item :=
  .record [
    (1, Item.uint i.code.toByte.toUInt64),
    (2, if i.n = 0 then none else Item.ofInt64 i.n),
    (3, i.value.toItem),
    (4, nonzero i.operator.toByte.toNat),
    (5, i.guard.toItem),
    (6, i.site.toItem)]

def Instr.ofItem? (i : Item) : Option Instr := do
  let es ← i.entries?
  return {
    code := Opcode.ofByte (← Item.field? 0 byte? 1 es)
    n := ← Item.field? 0 Item.signed? 2 es
    value := ← Item.field? {} Value.ofItem? 3 es
    operator := Operator.ofByte (← Item.field? 0 byte? 4 es)
    guard := ← Item.field? {} Guard.ofItem? 5 es
    site := ← Item.field? {} Position.ofItem? 6 es }

def Code.toItem (c : Code) : Item := Item.ofList? Instr.toItem c

def Code.ofItem? (i : Item) : Option Code := i.list? Instr.ofItem?

def Function.toItem (f : Function) : Item :=
  .record [
    (1, if f.name = [] then none else Item.ofString f.name),
    (2, Item.ofInt64 f.params),
    (3, Item.ofInt64 f.locals),
    (4, Item.ofInt64 f.mergePoint),
    (5, Code.toItem f.body)]

def Function.ofItem? (i : Item) : Option Function := do
  let es ← i.entries?
  return {
    name := ← Item.field? [] Item.string? 1 es
    params := ← Item.field? 0 Item.signed? 2 es
    locals := ← Item.field? 0 Item.signed? 3 es
    mergePoint := ← Item.field? 0 Item.signed? 4 es
    body := ← Item.field? none Code.ofItem? 5 es }

def Program.toItem (p : Program) : Item :=
  .record [(1, Item.ofList? (fun f => (f.map Function.toItem).getD Item.null) p.table)]

def Program.ofItem? (i : Item) : Option Program := do
  let es ← i.entries?
  return ⟨← Item.field? none (Item.list? (Item.nullable? Function.ofItem?)) 1 es⟩

namespace Wire

def version : Nat := 1

inductive ReadError
  | malformed
  | programVersion (n : Nat)
  | codeVersion (n : Nat)
  | noProgram
  | invalid (e : InvalidProgram)
deriving DecidableEq, Repr

def envelope (content : Item) : Item :=
  .record [(1, Item.uint (UInt64.ofNat version)), (2, content)]

def writeCode (c : Code) : Bytes := (envelope (Code.toItem c)).write

def writeProgram (p : Option Program) : Bytes :=
  (envelope ((p.map Program.toItem).getD Item.null)).write

def readEnvelope? {α : Type} (zero : α) (content : Item → Option α) (bytes : Bytes) : Option (Nat × α) := do
  let es ← (← Item.read? bytes).entries?
  return (← Item.field? 0 (Item.unsigned? 16) 1 es, ← Item.field? zero content 2 es)

def readCode (bytes : Bytes) : Except ReadError Code :=
  match readEnvelope? none Code.ofItem? bytes with
  | none => .error .malformed
  | some (v, c) => if v = version then .ok c else .error (.codeVersion v)

def readProgram (bytes : Bytes) : Except ReadError Program :=
  match readEnvelope? none (Item.nullable? Program.ofItem?) bytes with
  | none => .error .malformed
  | some (v, p) =>
    if v = version then
      match p with
      | none => .error .noProgram
      | some p =>
        match p.check with
        | .ok () => .ok p
        | .error e => .error (.invalid e)
    else .error (.programVersion v)

def ReadError.message : ReadError → String
  | malformed => "malformed bytes"
  | programVersion n =>
    "bytecode: unsupported program version " ++ toString n ++ " (want " ++ toString version ++ ")"
  | codeVersion n =>
    "bytecode: unsupported ops version " ++ toString n ++ " (want " ++ toString version ++ ")"
  | noProgram => "bytecode: unmarshal program: empty envelope"
  | invalid e => e.message

end Wire

end HotLoop
