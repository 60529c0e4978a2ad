import StackScript.Code.Emission
import StackScript.Code.Folding
import StackScript.Code.Image
import StackScript.Machine.Run
import StackScript.Token.Lexer
import StackScript.Tree.Parser

/-!
# Scripts

From source text to the outcome of a run: the text is cut into tokens, parsed, compiled, folded and run.
-/

namespace StackScript

/-- Why a script comes to nothing. -/
inductive ScriptFault where
  | lex (fault : LexFault)
  | parse (fault : ParseFault)
  | compile (fault : CompileFault)
  | image (fault : ImageFault)
  | run (failure : Failure)
  deriving DecidableEq, Repr

/-- The text of a script's fault. -/
def ScriptFault.message : ScriptFault → String
  | lex fault => fault.message
  | parse fault => fault.message
  | compile fault => fault.message
  | image fault => "bytecode image error: " ++ fault.message
  | run failure => failure.message

namespace Script

/-- The syntax tree of source text. -/
def parse (source : String) : Except ScriptFault Program := do
  let tokens ← (Token.ofSource source).mapError .lex
  (Program.ofTokens (tokens.map Located.token)).mapError .parse

/-- The code of a program, folded or not. -/
def compileProgram (program : Program) (fold : Bool) : Except ScriptFault Code := do
  let code ← program.compile.mapError .compile
  return if fold then (Code.fold code).code else code

/-- The code of source text, folded or not. -/
def compile (source : String) (fold : Bool) : Except ScriptFault Code := do
  compileProgram (← parse source) fold

/-- Run source text within the usual limits, for at most a number of rounds.  The answer is its value
and what it printed. -/
def run (rounds : Nat) (source : String) : Option (Except ScriptFault (Value × String)) :=
  match compile source true with
  | .error fault => some (.error fault)
  | .ok code =>
    ((Machine.new {} {}).run rounds code).map fun (result, m) =>
      match result with
      | .ok value => .ok (value, m.sink.text)
      | .error failure => .error (.run failure)

end Script

end StackScript
