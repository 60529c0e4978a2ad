/-!
# Numbers and texts as bytes

Writers give the bytes of a value; readers take a value off the front of a list of bytes.  A natural
number is written in groups of seven bits, the lowest first, with the top bit of a byte set when another
group follows.  Readers accept groups of zeros at the end, up to a fixed number of bytes.
-/

namespace StackScript.Wire

/-- What a reader can find wrong. -/
inductive Fault where
  | endOfBytes
  | endlessNumber
  | invalidText
  | unknownVariant
  deriving DecidableEq, Repr

/-- The text of a reader's complaint. -/
def Fault.message : Fault → String
  | endOfBytes => "Hit the end of buffer, expected more data"
  | endlessNumber => "Found a varint that didn't terminate. Is the usize too big for this platform?"
  | invalidText => "Tried to parse invalid utf-8"
  | unknownVariant => "Serde Deserialization Error"

/-- A reader of values of some type. -/
abbrev Reader := StateT (List UInt8) (Except Fault)

/-- The bytes of a natural number. -/
def ofNat (n : Nat) : List UInt8 :=
  if n < 128 then [UInt8.ofNat n] else UInt8.ofNat (n % 128 + 128) :: ofNat (n / 128)

/-- Read a natural number of at most `bytes` bytes, the last of which is at most `top`. -/
def number (top : Nat) : (bytes : Nat) → Reader Nat
  | 0, _ => .error .endlessNumber
  | _ + 1, [] => .error .endOfBytes
  | bytes + 1, b :: rest =>
    if b.toNat < 128 then
      if bytes = 0 ∧ top < b.toNat then .error .endlessNumber else .ok (b.toNat, rest)
    else do
      let (high, rest) ← number top bytes rest
      return (b.toNat - 128 + 128 * high, rest)

/-- Read a number below `2 ^ 64`. -/
def natural : Reader Nat := number 1 10

/-- Read a number below `2 ^ 32`. -/
def word : Reader Nat := number 15 5

/-- The bytes of an offset: non-negative ones as even numbers, negative ones as odd numbers. -/
def ofInt32 (n : Int32) : List UInt8 :=
  let i := n.toInt
  ofNat (if 0 ≤ i then 2 * i.toNat else 2 * (-i).toNat - 1)

/-- Read an offset. -/
def int32 : Reader Int32 := do
  let n ← word
  let i : Int := if n % 2 = 0 then (n / 2 : Nat) else -((n / 2 + 1 : Nat) : Int)
  return Int32.ofInt i

/-- Take a number of bytes. -/
def take (count : Nat) : Reader (List UInt8) := fun bytes =>
  if count ≤ bytes.length then .ok (bytes.take count, bytes.drop count) else .error .endOfBytes

/-- The eight bytes of a number, the lowest first. -/
def ofFloat (x : Float) : List UInt8 :=
  let bits := x.toBits.toNat
  (List.range 8).map fun k => UInt8.ofNat (bits / Nat.pow 256 k)

/-- Read a number. -/
def float : Reader Float := do
  let bytes ← take 8
  let bits := bytes.foldr (fun b n => b.toNat + 256 * n) 0
  return Float.ofBits (UInt64.ofNat bits)

/-- The bytes of a text: their number and the text in UTF-8. -/
def ofText (text : String) : List UInt8 :=
  let bytes := text.toUTF8.data.toList
  ofNat bytes.length ++ bytes

/-- Read a text. -/
def text : Reader String := do
  let count ← natural
  let bytes ← take count
  match String.fromUTF8? ⟨bytes.toArray⟩ with
  | some text => return text
  | none => throw .invalidText

/-- Read a number of values. -/
def many {α : Type} (reader : Reader α) : Nat → Reader (List α)
  | 0 => return []
  | n + 1 => do
    let first ← reader
    let rest ← many reader n
    return first :: rest

end StackScript.Wire
