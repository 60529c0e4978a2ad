import StackScript.Code.Instruction
import StackScript.Code.Wire

/-!
# Code images

Compiled code can be kept as a string of bytes: four bytes of magic, a format version, the number of
instructions and the instructions themselves.  Reading pays no heed to bytes after the last
instruction.
-/

namespace StackScript

/-- Why bytes are no image. -/
inductive ImageFault where
  | badMagic
  | unsupportedVersion (found expected : Nat)
  | malformed (fault : Wire.Fault)
  deriving DecidableEq, Repr

/-- The text of an image fault. -/
def ImageFault.message : ImageFault → String
  | badMagic => "not a quill bytecode image (bad magic)"
  | unsupportedVersion found expected =>
    s!"unsupported bytecode format version {found} (expected {expected})"
  | malformed fault => s!"malformed bytecode image: {fault.message}"

namespace Image

/-- The bytes that every image starts with. -/
def magic : List UInt8 := [0x51, 0x4c, 0x42, 0x43]

/-- The version of the format. -/
def version : UInt8 := 1

/-- The bytes of an operator: its place among all operators. -/
def ofOperator (op : Operator) : List UInt8 :=
  Wire.ofNat (Operator.all.idxOf op)

/-- The bytes of a constant. -/
def ofConstant : Constant → List UInt8
  | .number value => Wire.ofNat 0 ++ Wire.ofFloat value
  | .name text => Wire.ofNat 1 ++ Wire.ofText text
  | .address entry => Wire.ofNat 2 ++ Wire.ofNat entry

/-- The bytes of an instruction: its variant and its operand. -/
def ofInstruction : Instruction → List UInt8
  | .push constant => Wire.ofNat 0 ++ ofConstant constant
  | .store name => Wire.ofNat 1 ++ Wire.ofText name
  | .load name => Wire.ofNat 2 ++ Wire.ofText name
  | .binary op => Wire.ofNat 3 ++ ofOperator op
  | .jump offset => Wire.ofNat 4 ++ Wire.ofInt32 offset
  | .jumpIfFalse offset => Wire.ofNat 5 ++ Wire.ofInt32 offset
  | .jumpIfTrue offset => Wire.ofNat 6 ++ Wire.ofInt32 offset
  | .callBuiltin arguments => Wire.ofNat 7 ++ Wire.ofNat arguments
  | .callUser arguments => Wire.ofNat 8 ++ Wire.ofNat arguments
  | .declare parameters => Wire.ofNat 9 ++ Wire.ofNat parameters
  | .ret => Wire.ofNat 10
  | .drop => Wire.ofNat 11

/-- Read an operator. -/
def operator : Wire.Reader Operator := do
  match Operator.all[← Wire.word]? with
  | some op => return op
  | none => throw .unknownVariant

/-- Read a constant. -/
def constant : Wire.Reader Constant := do
  match ← Wire.word with
  | 0 => return .number (← Wire.float)
  | 1 => return .name (← Wire.text)
  | 2 => return .address (← Wire.natural)
  | _ => throw .unknownVariant

/-- Read an instruction. -/
def instruction : Wire.Reader Instruction := do
  match ← Wire.word with
  | 0 => return .push (← constant)
  | 1 => return .store (← Wire.text)
  | 2 => return .load (← Wire.text)
  | 3 => return .binary (← operator)
  | 4 => return .jump (← Wire.int32)
  | 5 => return .jumpIfFalse (← Wire.int32)
  | 6 => return .jumpIfTrue (← Wire.int32)
  | 7 => return .callBuiltin (← Wire.natural)
  | 8 => return .callUser (← Wire.natural)
  | 9 => return .declare (← Wire.natural)
  | 10 => return .ret
  | 11 => return .drop
  | _ => throw .unknownVariant

/-- Read the number of instructions and the instructions. -/
def instructions : Wire.Reader (List Instruction) := do
  let count ← Wire.natural
  Wire.many instruction count

end Image

namespace Code

/-- The image of some code. -/
def toImage (code : Code) : List UInt8 :=
  Image.magic ++ Image.version :: Wire.ofNat code.size
    ++ code.toList.flatMap Image.ofInstruction

/-- Read code from an image. -/
def ofImage : List UInt8 → Except ImageFault Code
  | 0x51 :: 0x4c :: 0x42 :: 0x43 :: found :: payload =>
    if found ≠ Image.version then
      .error (.unsupportedVersion found.toNat Image.version.toNat)
    else
      match Image.instructions payload with
      | .ok (instructions, _) => .ok instructions.toArray
      | .error fault => .error (.malformed fault)
  | _ => .error .badMagic

end Code

end StackScript
