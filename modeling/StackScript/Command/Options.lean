/-!
# Command line options

What the command is asked to do.  An argument that starts with two dashes is an option, and a lone `--`
ends the options; anything else is the one file.  No option may be given twice.
-/

namespace StackScript.Command

/-- The options without a value. -/
inductive Flag where
  | tokens
  | noColour
  | asSource
  | tree
  | listing
  | statistics
  | unfolded
  deriving DecidableEq, Repr

/-- All options without a value. -/
def Flag.all : List Flag := [tokens, noColour, asSource, tree, listing, statistics, unfolded]

/-- How an option is spelled. -/
def Flag.spelling : Flag → String
  | tokens => "--tokens"
  | noColour => "--no-color"
  | asSource => "--pretty"
  | tree => "--ast"
  | listing => "--bc"
  | statistics => "--stats"
  | unfolded => "--no-opt"

/-- What the command is asked to do. -/
structure Options where
  file : String
  flags : List Flag
  emit : Option String
  maxDepth : Nat
  maxSteps : Option Nat
  deriving DecidableEq, Repr

/-- Whether an option was given. -/
def Options.has (options : Options) (flag : Flag) : Bool :=
  options.flags.contains flag

/-- The arguments read so far. -/
structure Draft where
  file : Option String := none
  flags : List Flag := []
  emit : Option String := none
  maxDepth : Option Nat := none
  maxSteps : Option Nat := none
  deriving DecidableEq, Repr

/-- A number below `2 ^ 64` in decimal digits, possibly with a plus sign. -/
def size? (text : String) : Option Nat :=
  let digits := match text.toList with
    | '+' :: rest => rest
    | digits => digits
  if !digits.isEmpty && digits.all Char.isDigit then
    let n := digits.foldl (fun n c => 10 * n + (c.toNat - '0'.toNat)) 0
    if n < Nat.pow 2 64 then some n else none
  else
    none

/-- A path; it may not be empty. -/
def path? (text : String) : Option String :=
  if text.isEmpty then none else some text

/-- Fill a place that must still be free. -/
def fill {α : Type} (place : Option α) (value : Option α) : Option (Option α) :=
  match place, value with
  | none, some value => some (some value)
  | _, _ => none

namespace Draft

/-- Take the file. -/
def takeFile (draft : Draft) (text : String) : Option Draft := do
  return { draft with file := ← fill draft.file (path? text) }

/-- Take an option without a value. -/
def takeFlag (draft : Draft) (flag : Flag) : Option Draft :=
  if draft.flags.contains flag then none else some { draft with flags := flag :: draft.flags }

/-- Take an option with its value. -/
def takeOption (draft : Draft) (name value : String) : Option Draft :=
  match name with
  | "--emit" => do return { draft with emit := ← fill draft.emit (path? value) }
  | "--max-depth" => do return { draft with maxDepth := ← fill draft.maxDepth (size? value) }
  | "--max-steps" => do return { draft with maxSteps := ← fill draft.maxSteps (size? value) }
  | _ => none

/-- The options, if all that is needed was given. -/
def complete (draft : Draft) : Option Options := do
  return {
    file := ← draft.file
    flags := draft.flags
    emit := draft.emit
    maxDepth := draft.maxDepth.getD 1000
    maxSteps := draft.maxSteps }

end Draft

/-- Whether an argument is an option, or looks like one. -/
def isOption (argument : String) : Bool :=
  argument.startsWith "-" && argument ≠ "-"

/-- Divide an argument at its first `=` sign. -/
def divide (argument : String) : String × Option String :=
  let text := argument.toList
  let name := String.ofList (text.takeWhile (· ≠ '='))
  match text.dropWhile (· ≠ '=') with
  | [] => (name, none)
  | _ :: value => (name, some (String.ofList value))

/-- Take all arguments as files. -/
def readFiles (draft : Draft) : List String → Option Draft
  | [] => some draft
  | argument :: rest => do readFiles (← draft.takeFile argument) rest

/-- Read arguments.  The value of an option follows it as an argument of its own or after an `=`
sign. -/
def readArguments (draft : Draft) : List String → Option Draft
  | [] => some draft
  | "--" :: rest => readFiles draft rest
  | argument :: rest =>
    if !isOption argument then do
      readArguments (← draft.takeFile argument) rest
    else
      match divide argument, rest with
      | (name, some value), rest => do readArguments (← draft.takeOption name value) rest
      | (name, none), rest =>
        match Flag.all.find? (·.spelling == name), rest with
        | some flag, rest => do readArguments (← draft.takeFlag flag) rest
        | none, value :: rest =>
          if isOption value then none else do readArguments (← draft.takeOption name value) rest
        | none, [] => none

/-- The options that a list of arguments gives; `none` if it is not in order. -/
def Options.ofArguments? (arguments : List String) : Option Options := do
  (← readArguments {} arguments).complete

end StackScript.Command
