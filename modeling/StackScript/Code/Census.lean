import StackScript.Code.Instruction
import StackScript.Decimal.Fixed
import StackScript.Text.Column

/-!
# How often instructions occur

Counts of instructions by name, and the summary that is printed of them.
-/

namespace StackScript

/-- The number of instructions with one name. -/
structure Tally where
  mnemonic : String
  count : Nat
  deriving DecidableEq, Repr

/-- Count one more instruction; names keep the order in which they first occur. -/
def Tally.add (mnemonic : String) : List Tally → List Tally
  | [] => [⟨mnemonic, 1⟩]
  | tally :: rest =>
    if tally.mnemonic = mnemonic then
      { tally with count := tally.count + 1 } :: rest
    else
      tally :: Tally.add mnemonic rest

/-- The more frequent name comes first, and of equally frequent ones the lesser. -/
def Tally.before (a b : Tally) : Bool :=
  b.count < a.count || (a.count = b.count && (a.mnemonic < b.mnemonic || a.mnemonic = b.mnemonic))

/-- A line of the summary: the name, how often it occurs, and what share of all instructions that
is. -/
def Tally.line (total : Nat) (tally : Tally) : String :=
  let share := tally.count.toFloat / (max total 1).toFloat * 100.0
  "  " ++ Text.leftAligned 14 tally.mnemonic ++ " " ++ Text.rightAligned 4 (toString tally.count)
    ++ " (" ++ Text.rightAligned 5 (Decimal.fixed 1 share) ++ "%)\n"

namespace Code

/-- How often each instruction name occurs. -/
def census (code : Code) : List Tally :=
  code.toList.foldl (fun tallies i => Tally.add i.mnemonic tallies) []

/-- The most names that the summary lists. -/
def censusLines : Nat := 10

/-- The size of some code, the number of its functions, and its most frequent instructions. -/
def statistics (code : Code) : String :=
  let frequent := ((census code).mergeSort Tally.before).take censusLines
  "=== BYTECODE STATISTICS ===\n\nInstructions:     " ++ toString code.size
    ++ "\nFunctions:        " ++ toString (Code.entries code).eraseDups.length
    ++ "\n\nOp frequency:\n" ++ String.join (frequent.map (Tally.line code.size))

end Code

end StackScript
