import StackScript.Operator

/-!
# Instructions

Compiled code is a flat sequence of instructions for a stack machine.  Jumps are relative to their own
address; functions are entered at absolute addresses.  `Instruction.effect` says how many values an
instruction takes from the operand stack and how many it leaves there, as far as a machine word can tell.
-/

namespace StackScript

/-- A constant that an instruction pushes. -/
inductive Constant where
  | number (value : Float)
  | name (text : String)
  | address (entry : Nat)
  deriving DecidableEq, Repr

/-- One instruction.  The machine treats the two kinds of call alike; they record what was known about
the callee when the call was compiled. -/
inductive Instruction where
  | push (constant : Constant)
  | store (name : String)
  | load (name : String)
  | binary (op : Operator)
  | jump (offset : Int32)
  | jumpIfFalse (offset : Int32)
  | jumpIfTrue (offset : Int32)
  | callBuiltin (arguments : Nat)
  | callUser (arguments : Nat)
  | declare (parameters : Nat)
  | ret
  | drop
  deriving DecidableEq, Repr

/-- Compiled code. -/
abbrev Code := Array Instruction

/-- What an instruction does to the height of the operand stack. -/
structure Effect where
  pops : Nat
  pushes : Nat
  deriving DecidableEq, Repr

/-- The number that a constant holds. -/
def Constant.number? : Constant → Option Float
  | .number value => some value
  | _ => none

namespace Instruction

/-- The name of an operator's instruction. -/
def operatorMnemonic : Operator → String
  | .add => "ADD"
  | .sub => "SUB"
  | .mul => "MUL"
  | .div => "DIV"
  | .gt => "GT"
  | .ge => "GE"
  | .lt => "LT"
  | .le => "LE"
  | .eq => "EQ"

/-- The name of an instruction in listings and messages. -/
def mnemonic : Instruction → String
  | push _ => "PUSH"
  | store _ => "STORE"
  | load _ => "LOAD"
  | binary op => operatorMnemonic op
  | jump _ => "JUMP"
  | jumpIfFalse _ => "JUMP_FALSE"
  | jumpIfTrue _ => "JUMP_TRUE"
  | callBuiltin _ => "CALL_BUILTIN"
  | callUser _ => "CALL_USER"
  | declare _ => "DECLARE_FUNC"
  | ret => "RETURN"
  | drop => "POP_TOP"

/-- How many operands an instruction takes from the stack.  A call takes the callee and the arguments, a
declaration the name, the entry address and the parameter names. -/
def operands : Instruction → Nat
  | push _ | load _ | jump _ => 0
  | store _ | jumpIfFalse _ | jumpIfTrue _ | ret | drop => 1
  | binary _ => 2
  | callBuiltin arguments | callUser arguments => arguments + 1
  | declare parameters => parameters + 2

/-- How many values an instruction leaves on the stack.  What a call leaves is its result. -/
def results : Instruction → Nat
  | push _ | load _ | binary _ | callBuiltin _ | callUser _ => 1
  | store _ | jump _ | jumpIfFalse _ | jumpIfTrue _ | declare _ | ret | drop => 0

/-- The effect of an instruction on the stack of its own frame.  It is counted in machine words: if a call or a
declaration takes too many operands for one, their number wraps around. -/
def effect (i : Instruction) : Effect :=
  ⟨i.operands % UInt64.size, i.results⟩

/-- The distance that a jump covers, counted from its own address. -/
def offset? : Instruction → Option Int32
  | jump offset | jumpIfFalse offset | jumpIfTrue offset => some offset
  | _ => none

/-- A jump of the same kind with another offset; `none` for an instruction that is no jump. -/
def withOffset? (offset : Int32) : Instruction → Option Instruction
  | jump _ => some (jump offset)
  | jumpIfFalse _ => some (jumpIfFalse offset)
  | jumpIfTrue _ => some (jumpIfTrue offset)
  | _ => none

/-- Where a jump at a given address leads.  The target may lie outside the code. -/
def target? (i : Instruction) (address : Nat) : Option Int :=
  i.offset?.map fun offset => (address : Int) + offset.toInt

/-- The number that an instruction pushes. -/
def pushedNumber? : Instruction → Option Float
  | push constant => constant.number?
  | _ => none

/-- The function entry that an instruction pushes. -/
def entry? : Instruction → Option Nat
  | push (.address entry) => some entry
  | _ => none

end Instruction

/-- The function entries that code mentions, in order. -/
def Code.entries (code : Code) : List Nat :=
  code.toList.filterMap Instruction.entry?

/-- The addresses that the jumps of some code lead to, as far as they are not negative. -/
def Code.jumpTargets (code : Code) : List Nat :=
  code.toList.zipIdx.filterMap fun (i, address) =>
    match i.target? address with
    | some (.ofNat target) => some target
    | _ => none

end StackScript
