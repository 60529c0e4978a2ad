import StackScript.Code.Census
import StackScript.Code.Listing
import StackScript.Command.Options
import StackScript.Script
import StackScript.Token.Listing
import StackScript.Tree.Outline

/-!
# What the command does

The command reads one file, either source text or an image, and shows it, runs it, or has its image
written.  Reading and writing are left to the caller: `Session.run` is given what the file holds, and
answers with what to print, what to log, and the image to be written.
-/

namespace StackScript.Command

/-- How grave an event is. -/
inductive Level where
  | info
  | warning
  | error
  deriving DecidableEq, Repr

/-- The name of a level in the log. -/
def Level.title : Level → String
  | info => "INFO"
  | warning => "WARN"
  | error => "ERROR"

/-- Something worth logging. -/
structure Event where
  level : Level
  message : String
  deriving DecidableEq, Repr

/-- A character as it is logged: those that steer a terminal are spelled out. -/
def logged (c : Char) : String :=
  let hex := String.ofList (Nat.toDigits 16 c.toNat)
  if c = '\x1b' || c = '\x7f' then
    "\\x" ++ hex
  else if c = '\x07' || c = '\x08' || c = '\x0c' then
    "\\x0" ++ hex
  else if 0x80 ≤ c.toNat && c.toNat ≤ 0x9f then
    "\\u\x7b" ++ hex ++ "\x7d"
  else
    c.toString

/-- An event as it is logged. -/
def Event.text (event : Event) : String :=
  event.level.title ++ " " ++ String.join (event.message.toList.map logged)

/-- What the command has printed and logged, and the code that it exits with. -/
structure Report where
  output : String := ""
  log : List Event := []
  exitCode : Nat := 0
  deriving DecidableEq, Repr

namespace Report

/-- Print some text. -/
def print (report : Report) (text : String) : Report :=
  { report with output := report.output ++ text }

/-- Log an event. -/
def note (report : Report) (level : Level) (message : String) : Report :=
  { report with log := report.log ++ [⟨level, message⟩] }

/-- Log an error and exit. -/
def abort (report : Report) (message : String) : Report :=
  { report.note .error message with exitCode := 1 }

end Report

/-- The last part of a path, whatever slashes follow it. -/
def fileName (path : String) : List Char :=
  let trimmed := path.toList.reverse.dropWhile (· = '/')
  (trimmed.takeWhile (· ≠ '/')).reverse

/-- The extension of a path: what follows the last dot of its last part, unless that dot comes
first. -/
def extension? (path : String) : Option String :=
  let backwards := (fileName path).reverse
  let extension := backwards.takeWhile (· ≠ '.')
  match backwards.dropWhile (· ≠ '.') with
  | [] | ['.'] => none
  | _ :: _ => if backwards = ['.', '.'] then none else some (String.ofList extension.reverse)

/-- Whether a path names an image. -/
def isImage (path : String) : Bool :=
  extension? path == some "qlc"

namespace Session

/-- Either the command is finished, or there is code to go on with. -/
inductive Stage where
  | finished (report : Report)
  | ready (code : Code) (report : Report)

/-- What the command comes to: its report, and the image to be written with its path. -/
structure Outcome where
  report : Report
  image : Option (String × List UInt8) := none

/-- Load an image. -/
def loadImage (options : Options) (content : Except String (List UInt8)) : Stage :=
  let report : Report :=
    if options.has .tokens || options.has .tree then
      ({} : Report).note .warning
        "--tokens and --ast need source text; ignored for a bytecode image"
    else
      {}
  match content with
  | .error reason => .finished (report.abort s!"Failed to read '{options.file}': {reason}")
  | .ok bytes =>
    match Code.ofImage bytes with
    | .error fault => .finished (report.abort s!"{options.file}: {fault.message}")
    | .ok code =>
      .ready code (report.note .info s!"Loaded {code.size} instructions from {options.file}")

/-- The text that bytes spell. -/
def decoded (content : Except String (List UInt8)) : Except String String := do
  match String.fromUTF8? ⟨(← content).toArray⟩ with
  | some text => return text
  | none => throw "stream did not contain valid UTF-8"

/-- Show the tokens of source text. -/
def showTokens (options : Options) (source : String) : Report :=
  match Token.ofSource source with
  | .error fault => ({} : Report).abort fault.message
  | .ok tokens =>
    let style : TokenListing :=
      { coloured := !options.has .noColour, asSource := options.has .asSource }
    ({} : Report).print (style.render tokens)

/-- Fold code, and note how much that has saved. -/
def foldCode (code : Code) : Stage :=
  let folded := Code.fold code
  let sizes := s!"{code.size} -> {folded.code.size} instructions"
  let report : Report :=
    if folded.folded = 0 then
      {}
    else
      ({} : Report).note .info s!"{sizes} folded={folded.folded} blocked={folded.blocked}"
  .ready folded.code report

/-- Compile source text, or show its tokens or its tree. -/
def compileSource (options : Options) (content : Except String (List UInt8)) : Stage :=
  match decoded content with
  | .error reason =>
    .finished (({} : Report).abort s!"Failed to read '{options.file}': {reason}")
  | .ok source =>
    if options.has .tokens then
      .finished (showTokens options source)
    else
      match Script.parse source with
      | .error fault => .finished (({} : Report).abort fault.message)
      | .ok program =>
        if options.has .tree then
          .finished (({} : Report).print (program.outline.render ++ "\n"))
        else
          match program.compile with
          | .error fault => .finished (({} : Report).abort fault.message)
          | .ok code => if options.has .unfolded then .ready code {} else foldCode code

/-- The code that the file holds. -/
def prepare (options : Options) (content : Except String (List UInt8)) : Stage :=
  if isImage options.file then loadImage options content else compileSource options content

/-- Show code as far as the options ask for it. -/
def showCode (options : Options) (code : Code) (report : Report) : Report :=
  let report :=
    if options.has .listing then report.print (Code.titledListing code) else report
  if options.has .statistics then report.print (Code.statistics code) else report

/-- Run code and report what it prints. -/
def runCode (rounds : Nat) (options : Options) (code : Code) (report : Report) : Option Report :=
  let limits : Limits := { maxCallDepth := options.maxDepth, maxSteps := options.maxSteps }
  ((Machine.new limits {}).run rounds code).map fun (result, m) =>
    let report := report.print m.sink.text
    match result with
    | .ok _ => report
    | .error failure => report.abort failure.message

/-- Do what the options ask for, given what the file holds or why it cannot be read.  A run has no
outcome if it takes more than a number of rounds. -/
def run (rounds : Nat) (options : Options) (content : Except String (List UInt8)) :
    Option Outcome :=
  match prepare options content with
  | .finished report => some { report := report }
  | .ready code report =>
    let report := showCode options code report
    match options.emit with
    | some path => some { report := report, image := some (path, Code.toImage code) }
    | none => (runCode rounds options code report).map fun report => { report := report }

/-- Report whether an image was written. -/
def written (report : Report) (path : String) : Except String Unit → Report
  | .ok () => report.note .info s!"Wrote bytecode image to {path}"
  | .error reason => report.abort s!"Failed to write {path}: {reason}"

end Session

end StackScript.Command
