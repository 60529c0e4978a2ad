/-!
# Sinks

A sink takes the bytes that a program prints.  It may have room for a limited number of bytes only, and
it may refuse to be flushed.
-/

namespace StackScript

/-- Why a sink refuses. -/
inductive SinkFault where
  | full
  | unflushable
  deriving DecidableEq, Repr

/-- The text of a refusal. -/
def SinkFault.message : SinkFault → String
  | full => "sink full"
  | unflushable => "flush failed"

/-- A place for output bytes. -/
structure Sink where
  /-- What has been written so far. -/
  bytes : Array UInt8 := #[]
  /-- The most bytes that the sink can hold; `none` if it can hold any number. -/
  capacity : Option Nat := none
  /-- Whether flushing succeeds. -/
  flushable : Bool := true
  deriving DecidableEq, Repr

namespace Sink

/-- Write bytes.  A sink that cannot hold all of them keeps those that fit, and the write fails. -/
def write (sink : Sink) (bytes : Array UInt8) : Option SinkFault × Sink :=
  let whole := sink.bytes ++ bytes
  match sink.capacity with
  | none => (none, { sink with bytes := whole })
  | some capacity =>
    if whole.size ≤ capacity then
      (none, { sink with bytes := whole })
    else
      (some .full, { sink with bytes := sink.bytes ++ bytes.take (capacity - sink.bytes.size) })

/-- Write a line of text and its line break. -/
def writeLine (sink : Sink) (line : String) : Option SinkFault × Sink :=
  sink.write (line ++ "\n").toUTF8.data

/-- Flush the sink. -/
def flush (sink : Sink) : Option SinkFault :=
  if sink.flushable then none else some .unflushable

/-- The bytes written so far as text.  When a full sink has cut the last character short, a replacement
character stands for what is left of it. -/
def text (sink : Sink) : String :=
  let whole (dropped : Nat) : Option String :=
    String.fromUTF8? ⟨sink.bytes.take (sink.bytes.size - dropped)⟩
  match whole 0 with
  | some text => text
  | none => (([1, 2, 3].findSome? whole).getD "") ++ "�"

end Sink

end StackScript
