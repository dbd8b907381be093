import HotLoop.Code.Program

namespace HotLoop

namespace Instr

def target? (i : Instr) (pc : Int64) : Option Int64 :=
  match i.code with
  | .skip | .skipIf => some (pc + i.n)
  | .jumpBack | .jumpBackIf => some (pc - i.n)
  | _ => none

def listingLine (marked : Bool) (pc : Nat) (i : Instr) : String :=
  let jump :=
    match i.target? (Int64.ofNat pc) with
    | some t => "  ; -> " ++ Text.paddedInt 4 t.toInt
    | none => ""
  (if marked then "=>" else "  ") ++ " " ++ Text.paddedInt 4 pc ++ "  " ++ i.text ++ jump ++ "\n"

def listingFrom (mark : Int64) : Nat → List Instr → String
  | _, [] => ""
  | pc, i :: rest => listingLine (Int64.ofNat pc = mark) pc i ++ listingFrom mark (pc + 1) rest

def listing (code : List Instr) : String := listingFrom (-1) 0 code

end Instr

namespace Function

def header (f : Function) (index : Nat) : Bytes :=
  let name := if f.name = [] then Text.bytes ("fn" ++ toString index) else f.name
  Text.bytes "; === " ++ name ++ Text.bytes (" ===\n; Params: " ++ Text.decimal f.params ++ "  Locals: " ++
    Text.decimal f.locals ++ "  MergePoint: " ++ Text.decimal f.mergePoint ++ "\n")

def listing (f : Function) (index : Nat) : Bytes :=
  f.header index ++ Text.bytes (Instr.listingFrom f.mergePoint 0 f.instrs)

end Function

namespace Program

def listingsFrom : Nat → List (Option Function) → Option (List Bytes)
  | _, [] => some []
  | _, none :: _ => none
  | index, some f :: rest => (listingsFrom (index + 1) rest).map (f.listing index :: ·)

def listing? (p : Program) : Option Bytes :=
  (listingsFrom 0 p.entries).map (List.intercalate (Text.bytes "\n"))

end Program

end HotLoop
