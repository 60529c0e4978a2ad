import StackScript.Code.Instruction
import StackScript.Number
import StackScript.Text.Column

/-!
# Listings of code

One line per instruction, with its address and operand.  A banner stands before the entries of functions
and before the targets of jumps.
-/

namespace StackScript

/-- A constant as an operand. -/
def Constant.operand : Constant → String
  | .number value => Number.text value
  | .name text => "\"" ++ text ++ "\""
  | .address entry => "@" ++ Text.zeroPadded 4 entry

/-- The width of the column of instruction names. -/
def mnemonicWidth : Nat := 12

/-- The operand of an instruction at an address.  A jump shows its offset, its direction and its
target. -/
def Instruction.operand? (ip : Nat) : Instruction → Option String
  | .push constant => some constant.operand
  | .store name | .load name => some name
  | .binary op => some ("; " ++ op.symbol)
  | .jump offset | .jumpIfFalse offset | .jumpIfTrue offset =>
    let arrow := if offset < 0 then "↑" else "↓"
    let target := (ip : Int) + offset.toInt
    some (Text.signedInt offset.toInt ++ " (" ++ arrow ++ " " ++ Text.zeroPaddedInt 4 target ++ ")")
  | .callBuiltin arguments | .callUser arguments => some ("argc=" ++ toString arguments)
  | .declare parameters => some ("params=" ++ toString parameters)
  | .ret | .drop => none

/-- An instruction at an address. -/
def Instruction.listing (ip : Nat) (i : Instruction) : String :=
  match i.operand? ip with
  | some operand => Text.leftAligned mnemonicWidth i.mnemonic ++ operand
  | none => i.mnemonic

namespace Code

/-- The banner before the entry of a function. -/
def entryBanner : String := "      ╞══ function entry ════════════════\n"

/-- The banner before the target of a jump. -/
def targetBanner : String := "      ┌──────────────────────────────────\n"

/-- The line of an instruction, after the banner that its address may have. -/
def listingLine (entries targets : List Nat) (ip : Nat) (i : Instruction) : String :=
  let isEntry := entries.contains ip
  let isTarget := targets.contains ip
  let banner := if isEntry then entryBanner else if isTarget then targetBanner else ""
  let pointer := if isEntry || isTarget then "► " else "  "
  banner ++ Text.zeroPadded 4 ip ++ " " ++ pointer ++ i.listing ip ++ "\n"

/-- The listing of some code. -/
def listing (code : Code) : String :=
  let entries := Code.entries code
  let targets := Code.jumpTargets code
  String.join (code.toList.zipIdx.map fun (i, ip) => listingLine entries targets ip i)

/-- The listing of some code under a title. -/
def titledListing (code : Code) : String :=
  let rule := String.ofList (List.replicate 40 '═') ++ "\n"
  rule ++ " main\n " ++ toString code.size ++ " instructions\n" ++ rule ++ listing code ++ "\n"

end Code

end StackScript
