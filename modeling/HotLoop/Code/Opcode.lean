import HotLoop.Text.Digits

namespace HotLoop

inductive Opcode
  | noop
  | panic
  | const
  | pop
  | tuple
  | tupleInit
  | tupleGet
  | tupleSet
  | array
  | fill
  | len
  | getIndex
  | assignIndex
  | materialize
  | unsize
  | address
  | deref
  | load
  | store
  | binary
  | checkedBinary
  | not
  | neg
  | skip
  | jumpBack
  | skipIf
  | jumpBackIf
  | call
  | static
  | ret
  | guard
  | other (n : Fin 225)
deriving DecidableEq, Repr, Inhabited

namespace Opcode

def all : List Opcode :=
  [noop, panic, const, pop, tuple, tupleInit, tupleGet, tupleSet, array, fill, len, getIndex,
    assignIndex, materialize, unsize, address, deref, load, store, binary, checkedBinary, not, neg,
    skip, jumpBack, skipIf, jumpBackIf, call, static, ret, guard]

def toByte : Opcode → UInt8
  | noop => 0
  | panic => 1
  | const => 2
  | pop => 3
  | tuple => 4
  | tupleInit => 5
  | tupleGet => 6
  | tupleSet => 7
  | array => 8
  | fill => 9
  | len => 10
  | getIndex => 11
  | assignIndex => 12
  | materialize => 13
  | unsize => 14
  | address => 15
  | deref => 16
  | load => 17
  | store => 18
  | binary => 19
  | checkedBinary => 20
  | not => 21
  | neg => 22
  | skip => 23
  | jumpBack => 24
  | skipIf => 25
  | jumpBackIf => 26
  | call => 27
  | static => 28
  | ret => 29
  | guard => 30
  | other n => UInt8.ofNat (n.val + 31)

def ofByte (b : UInt8) : Opcode :=
  if h : 31 ≤ b.toNat then
    other ⟨b.toNat - 31, by have := b.toNat_lt; omega⟩
  else
    match b.toNat with
    | 0 => noop
    | 1 => panic
    | 2 => const
    | 3 => pop
    | 4 => tuple
    | 5 => tupleInit
    | 6 => tupleGet
    | 7 => tupleSet
    | 8 => array
    | 9 => fill
    | 10 => len
    | 11 => getIndex
    | 12 => assignIndex
    | 13 => materialize
    | 14 => unsize
    | 15 => address
    | 16 => deref
    | 17 => load
    | 18 => store
    | 19 => binary
    | 20 => checkedBinary
    | 21 => not
    | 22 => neg
    | 23 => skip
    | 24 => jumpBack
    | 25 => skipIf
    | 26 => jumpBackIf
    | 27 => call
    | 28 => static
    | 29 => ret
    | _ => guard

def byteText (c : Opcode) : String := "0x" ++ Text.upperHex 2 c.toByte.toNat

def name : Opcode → String
  | noop => "NOOP"
  | panic => "PANIC"
  | const => "CONST"
  | pop => "POP"
  | tuple => "TUPLE"
  | tupleInit => "TUPLE_INIT"
  | tupleGet => "TUPLE_GET"
  | tupleSet => "TUPLE_SET"
  | array => "ARRAY"
  | fill => "REPEAT"
  | len => "LEN"
  | getIndex => "GET_INDEX"
  | assignIndex => "ASSIGN_INDEX"
  | materialize => "USE"
  | unsize => "UNSIZE"
  | address => "REF"
  | deref => "DEREF"
  | load => "LOAD"
  | store => "STORE"
  | binary => "BINOP"
  | checkedBinary => "CHECKED_BINOP"
  | not => "NOT"
  | neg => "NEG"
  | skip => "SKIP"
  | jumpBack => "JUMP_BACK"
  | skipIf => "SKIP_IF"
  | jumpBackIf => "JUMP_BACK_IF"
  | call => "CALL"
  | static => "STATIC"
  | ret => "RETURN"
  | guard => "GUARD"
  | other n => "UNKNOWN(" ++ byteText (other n) ++ ")"

def isKnown : Opcode → Bool
  | other _ => false
  | _ => true

def isJump : Opcode → Bool
  | skip | jumpBack | skipIf | jumpBackIf => true
  | _ => false

def isConditional : Opcode → Bool
  | skipIf | jumpBackIf => true
  | _ => false

def isCall : Opcode → Bool
  | call | static => true
  | _ => false

def hasOperand : Opcode → Bool
  | tuple | tupleInit | tupleGet | tupleSet | array | fill | load | store | static => true
  | c => c.isJump

end Opcode

end HotLoop
