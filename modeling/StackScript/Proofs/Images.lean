import Mathlib
import StackScript.Code.Image

/-!
# Images tell where they end

The bytes of an image say by themselves where each part of it ends.  So a reader that is given all of the
bytes gives back what was written and leaves alone whatever follows (`Code.ofImage_toImage_append`), and a
reader that is given only the first of them finds that bytes are missing (`Code.ofImage_truncated`).

Both are one property of a reader and the bytes of a value, `Wire.Reads`.

## Shape of the proof

* `Wire.Reads.bind`       — the property passes to sequences of readers, on the bytes put one after another.
* `Wire.reads_number`     — the groups of seven bits, for every number that the reader has room for.
* `Wire.reads_float`      — the eight bytes of a number, from the lowest up.
* `Image.reads_instruction` — one case for each kind of instruction.
* `Code.Storable.reads`   — any number of instructions after their number.
-/

namespace StackScript

namespace Wire

variable {α β : Type}

/-! ## Readers in sequence -/

theorem bind_ok {x : Reader α} {f : α → Reader β} {bytes rest : List UInt8} {a : α}
    (h : x bytes = .ok (a, rest)) : (x >>= f) bytes = f a rest := by
  show (x bytes >>= fun p => f p.1 p.2) = f a rest
  rw [h]
  rfl

theorem bind_error {x : Reader α} {f : α → Reader β} {bytes : List UInt8} {fault : Fault}
    (h : x bytes = .error fault) : (x >>= f) bytes = .error fault := by
  show (x bytes >>= fun p => f p.1 p.2) = .error fault
  rw [h]
  rfl

/-- The bytes stand for the value, and tell where they end: from all of them the reader gets the value and
leaves what follows, and from some of the first of them it gets no value but runs out of bytes. -/
structure Reads (reader : Reader α) (bytes : List UInt8) (a : α) : Prop where
  whole : ∀ rest, reader (bytes ++ rest) = .ok (a, rest)
  cut : ∀ {front}, front <+: bytes → front ≠ bytes → reader front = .error .endOfBytes

namespace Reads

theorem pure (a : α) : Reads (Pure.pure a) [] a where
  whole _ := rfl
  cut hfront hne := absurd (List.prefix_nil.1 hfront) hne

/-- Bytes that are cut short are cut in the part of the first reader, or in that of the second. -/
theorem bind {x : Reader α} {f : α → Reader β} {bytes bytes' : List UInt8} {a : α} {b : β}
    (hx : Reads x bytes a) (hf : Reads (f a) bytes' b) : Reads (x >>= f) (bytes ++ bytes') b where
  whole rest := by
    rw [List.append_assoc, bind_ok (hx.whole (bytes' ++ rest)), hf.whole rest]
  cut {front} hfront hne := by
    by_cases hshort : front <+: bytes ∧ front ≠ bytes
    · exact bind_error (hx.cut hshort.1 hshort.2)
    · obtain ⟨front', rfl⟩ : bytes <+: front := by
        rcases List.prefix_or_prefix_of_prefix hfront (List.prefix_append bytes bytes') with h | h
        · rw [not_and_not_right.1 hshort h]
        · exact h
      have hfront' : front' <+: bytes' := (List.prefix_append_right_inj bytes).1 hfront
      have hne' : front' ≠ bytes' := fun h => hne (congrArg (bytes ++ ·) h)
      rw [bind_ok (hx.whole front'), hf.cut hfront' hne']

theorem bind_pure {x : Reader α} {f : α → Reader β} {bytes : List UInt8} {a : α} {b : β}
    (hx : Reads x bytes a) (hf : f a = Pure.pure b) : Reads (x >>= f) bytes b := by
  have hlast : Reads (f a) [] b := hf ▸ pure b
  have h := hx.bind hlast
  rwa [List.append_nil] at h

theorem map {x : Reader α} {bytes : List UInt8} {a : α} (hx : Reads x bytes a) (g : α → β) :
    Reads (x >>= fun a => Pure.pure (g a)) bytes (g a) :=
  hx.bind_pure rfl

/-- A reader that takes a byte and then goes on like another one. -/
theorem cons {x : Reader β} {y : Reader α} {b : UInt8} {bytes : List UInt8} {a : α} (g : α → β)
    (hnil : x [] = .error .endOfBytes)
    (hcons : ∀ rest, x (b :: rest) = (y rest).map fun p => (g p.1, p.2)) (hy : Reads y bytes a) :
    Reads x (b :: bytes) (g a) where
  whole rest := by
    rw [List.cons_append, hcons, hy.whole rest]
    rfl
  cut {front} hfront hne := by
    rcases List.prefix_cons_iff.1 hfront with rfl | ⟨front', rfl, hfront'⟩
    · exact hnil
    · rw [hcons, hy.cut hfront' fun h => hne (congrArg _ h)]
      rfl

end Reads

/-- Values one after another are read one after another. -/
theorem reads_many {reader : Reader α} {write : α → List UInt8} (values : List α)
    (h : ∀ a ∈ values, Reads reader (write a) a) :
    Reads (many reader values.length) (values.flatMap write) values := by
  induction values with
  | nil => exact .pure []
  | cons a values ih =>
    have hfirst : Reads reader (write a) a := h a (by simp)
    have hrest := ih fun b hb => h b (by simp [hb])
    exact hfirst.bind (hrest.map (a :: ·))

/-! ## Numbers -/

/-- How many numbers a reader can give that takes at most `bytes` bytes, the last of which is at most
`top`. -/
def room (top : Nat) : (bytes : Nat) → Nat
  | 0 => 0
  | 1 => top + 1
  | bytes + 2 => 128 * room top (bytes + 1)

theorem ofNat_of_lt {n : Nat} (h : n < 128) : ofNat n = [UInt8.ofNat n] := by
  rw [ofNat, if_pos h]

theorem ofNat_of_le {n : Nat} (h : 128 ≤ n) :
    ofNat n = UInt8.ofNat (n % 128 + 128) :: ofNat (n / 128) := by
  rw [ofNat, if_neg (by omega)]

theorem number_last (top bytes : Nat) {b : UInt8} (hb : b.toNat < 128)
    (htop : bytes = 0 → b.toNat ≤ top) (rest : List UInt8) :
    number top (bytes + 1) (b :: rest) = .ok (b.toNat, rest) := by
  rw [number, if_pos hb, if_neg (fun h => by have := htop h.1; omega)]

theorem number_more (top bytes : Nat) {b : UInt8} (hb : 128 ≤ b.toNat) (rest : List UInt8) :
    number top (bytes + 1) (b :: rest) =
      (number top bytes rest).map fun p => (b.toNat - 128 + 128 * p.1, p.2) := by
  rw [number, if_neg (by omega)]
  cases number top bytes rest <;> rfl

/-- A number is read from its own bytes by every reader that has room for it. -/
theorem reads_number {top : Nat} (htop : top < 128) {bytes n : Nat} (h : n < room top bytes) :
    Reads (number top bytes) (ofNat n) n := by
  induction bytes generalizing n with
  | zero => exact absurd h (Nat.not_lt_zero n)
  | succ bytes ih =>
    by_cases hn : n < 128
    · have hb : (UInt8.ofNat n).toNat = n := UInt8.toNat_ofNat_of_lt' (Nat.lt_trans hn (by decide))
      have hlast : bytes = 0 → n ≤ top := by
        rintro rfl
        exact Nat.le_of_lt_succ h
      have hread := Reads.cons (fun _ => (UInt8.ofNat n).toNat) rfl
        (number_last top bytes (by omega) fun hz => hb.symm ▸ hlast hz) (.pure ())
      rwa [hb, ← ofNat_of_lt hn] at hread
    · -- a further group follows, so the reader takes more than one byte
      have hb : (UInt8.ofNat (n % 128 + 128)).toNat = n % 128 + 128 :=
        UInt8.toNat_ofNat_of_lt' (show n % 128 + 128 < 256 by omega)
      have hhigh : n / 128 < room top bytes := by
        cases bytes with
        | zero =>
          have : n < top + 1 := h
          omega
        | succ bytes =>
          have : n < 128 * room top (bytes + 1) := h
          omega
      have hmore : 128 ≤ (UInt8.ofNat (n % 128 + 128)).toNat := by omega
      have hread := Reads.cons (fun high => (UInt8.ofNat (n % 128 + 128)).toNat - 128 + 128 * high)
        rfl (number_more top bytes hmore) (ih hhigh)
      rwa [hb, show n % 128 + 128 - 128 + 128 * (n / 128) = n by omega,
        ← ofNat_of_le (by omega)] at hread

theorem reads_natural {n : Nat} (h : n < UInt64.size) : Reads natural (ofNat n) n :=
  reads_number (by decide) h

theorem reads_word {n : Nat} (h : n < UInt32.size) : Reads word (ofNat n) n :=
  reads_number (by decide) h

theorem reads_int32_of_word {n : Nat} {offset : Int32} (hn : n < UInt32.size)
    (h : (if n % 2 = 0 then ((n / 2 : Nat) : Int) else -((n / 2 + 1 : Nat) : Int)) = offset.toInt) :
    Reads int32 (ofNat n) offset := by
  have hread := (reads_word hn).map fun n : Nat =>
    Int32.ofInt (if n % 2 = 0 then ((n / 2 : Nat) : Int) else -((n / 2 + 1 : Nat) : Int))
  rw [h, Int32.ofInt_toInt] at hread
  exact hread

/-- An offset is read from its own bytes, whatever its sign. -/
theorem reads_int32 (offset : Int32) : Reads int32 (ofInt32 offset) offset := by
  have hlow := offset.le_toInt
  have hhigh := offset.toInt_lt
  have hsize : UInt32.size = 4294967296 := rfl
  by_cases hsign : 0 ≤ offset.toInt
  · rw [ofInt32, if_pos hsign]
    apply reads_int32_of_word
    · omega
    · rw [if_pos (by omega)]
      omega
  · rw [ofInt32, if_neg hsign]
    apply reads_int32_of_word
    · omega
    · rw [if_neg (by omega)]
      omega

/-! ## Bytes, floats and texts -/

theorem reads_take (bytes : List UInt8) : Reads (take bytes.length) bytes bytes where
  whole rest := by
    rw [take, if_pos (by simp), List.take_left, List.drop_left]
  cut {front} hfront hne := by
    have hlt : front.length < bytes.length :=
      Nat.lt_of_le_of_ne hfront.length_le fun h => hne (hfront.eq_of_length h)
    rw [take, if_neg (by omega)]

/-- The lowest bytes of a number, put together again from the lowest up. -/
theorem foldr_bytes (count n : Nat) :
    ((List.range count).map fun k => UInt8.ofNat (n / Nat.pow 256 k)).foldr
      (fun b n => b.toNat + 256 * n) 0 = n % Nat.pow 256 count := by
  induction count generalizing n with
  | zero => exact (Nat.mod_one n).symm
  | succ count ih =>
    have hbyte : (UInt8.ofNat (n / Nat.pow 256 0)).toNat = n % 256 := by
      rw [show Nat.pow 256 0 = 1 from rfl, Nat.div_one, UInt8.toNat_ofNat']
    have hshift : (fun k => UInt8.ofNat (n / Nat.pow 256 k)) ∘ Nat.succ =
        fun k => UInt8.ofNat (n / 256 / Nat.pow 256 k) := by
      funext k
      show UInt8.ofNat (n / (Nat.pow 256 k * 256)) = UInt8.ofNat (n / 256 / Nat.pow 256 k)
      rw [Nat.div_div_eq_div_mul, Nat.mul_comm]
    rw [List.range_succ_eq_map, List.map_cons, List.map_map, List.foldr_cons, hbyte, hshift, ih]
    show n % 256 + 256 * (n / 256 % Nat.pow 256 count) = n % (Nat.pow 256 count * 256)
    rw [Nat.mul_comm (Nat.pow 256 count) 256, Nat.mod_mul]

/-- Every float is read from its own bytes: each has one pattern of bits, which gives it back. -/
theorem reads_float (x : Float) : Reads float (ofFloat x) x := by
  have hlength : (ofFloat x).length = 8 := by simp [ofFloat]
  have hbytes := reads_take (ofFloat x)
  rw [hlength] at hbytes
  have hbits : (ofFloat x).foldr (fun b n => b.toNat + 256 * n) 0 = x.toBits.toNat := by
    refine (foldr_bytes 8 x.toBits.toNat).trans (Nat.mod_eq_of_lt ?_)
    exact x.toBits.toNat_lt
  have hread := hbytes.map fun bytes =>
    Float.ofBits (UInt64.ofNat (bytes.foldr (fun b n => b.toNat + 256 * n) 0))
  rw [hbits, UInt64.ofNat_toNat, Float.ofBits_toBits] at hread
  exact hread

theorem fromUTF8?_toUTF8 (text : String) : String.fromUTF8? text.toUTF8 = some text := by
  unfold String.fromUTF8?
  rw [dif_pos (show text.toUTF8.IsValidUTF8 from text.isValidUTF8)]
  rfl

/-- A text is read from its own bytes if their number can be. -/
theorem reads_text {content : String} (h : content.utf8ByteSize < UInt64.size) :
    Reads text (ofText content) content := by
  have hcount : content.toUTF8.data.toList.length < UInt64.size := by
    rwa [Array.length_toList, show content.toUTF8.data.size = content.utf8ByteSize from
      String.size_toByteArray]
  have hbytes := reads_take content.toUTF8.data.toList
  have hback : (⟨content.toUTF8.data.toList.toArray⟩ : ByteArray) = content.toUTF8 := by
    rw [Array.toArray_toList]
  refine (reads_natural hcount).bind (hbytes.bind_pure ?_)
  rw [hback, fromUTF8?_toUTF8]

end Wire

/-! ## Instructions -/

/-- Constants whose operand an image can hold. -/
def Constant.Storable : Constant → Prop
  | .number _ => True
  | .name text => text.utf8ByteSize < UInt64.size
  | .address entry => entry < UInt64.size

/-- Instructions whose operand an image can hold: counts and addresses are below `2 ^ 64`, and so is the
number of bytes of a name. -/
def Instruction.Storable : Instruction → Prop
  | .push constant => constant.Storable
  | .store name | .load name => name.utf8ByteSize < UInt64.size
  | .callBuiltin count | .callUser count | .declare count => count < UInt64.size
  | .binary _ | .jump _ | .jumpIfFalse _ | .jumpIfTrue _ | .ret | .drop => True

instance (constant : Constant) : Decidable constant.Storable :=
  match constant with
  | .number _ => inferInstanceAs (Decidable True)
  | .name text => inferInstanceAs (Decidable (text.utf8ByteSize < UInt64.size))
  | .address entry => inferInstanceAs (Decidable (entry < UInt64.size))

instance (i : Instruction) : Decidable i.Storable :=
  match i with
  | .push constant => inferInstanceAs (Decidable constant.Storable)
  | .store name | .load name => inferInstanceAs (Decidable (name.utf8ByteSize < UInt64.size))
  | .callBuiltin count | .callUser count | .declare count =>
    inferInstanceAs (Decidable (count < UInt64.size))
  | .binary _ | .jump _ | .jumpIfFalse _ | .jumpIfTrue _ | .ret | .drop =>
    inferInstanceAs (Decidable True)

namespace Image

open Wire

/-- The number of a variant. -/
theorem reads_variant {n : Nat} (h : n < 128) : Reads word (ofNat n) n :=
  reads_word (Nat.lt_trans h (by decide))

theorem reads_operator (op : Operator) : Reads operator (ofOperator op) op := by
  have hplace : Operator.all.idxOf op < 128 ∧ Operator.all[Operator.all.idxOf op]? = some op := by
    cases op <;> decide
  refine (reads_variant hplace.1).bind_pure ?_
  rw [hplace.2]

theorem reads_constant {c : Constant} (h : c.Storable) : Reads constant (ofConstant c) c := by
  cases c with
  | number value => exact (reads_variant (by decide)).bind ((reads_float value).map _)
  | name content => exact (reads_variant (by decide)).bind ((reads_text h).map _)
  | address entry => exact (reads_variant (by decide)).bind ((reads_natural h).map _)

/-- Every instruction is read from its own bytes. -/
theorem reads_instruction {i : Instruction} (h : i.Storable) :
    Reads instruction (ofInstruction i) i := by
  cases i with
  | push constant => exact (reads_variant (by decide)).bind ((reads_constant h).map _)
  | store name => exact (reads_variant (by decide)).bind ((reads_text h).map _)
  | load name => exact (reads_variant (by decide)).bind ((reads_text h).map _)
  | binary op => exact (reads_variant (by decide)).bind ((reads_operator op).map _)
  | jump offset => exact (reads_variant (by decide)).bind ((reads_int32 offset).map _)
  | jumpIfFalse offset => exact (reads_variant (by decide)).bind ((reads_int32 offset).map _)
  | jumpIfTrue offset => exact (reads_variant (by decide)).bind ((reads_int32 offset).map _)
  | callBuiltin count => exact (reads_variant (by decide)).bind ((reads_natural h).map _)
  | callUser count => exact (reads_variant (by decide)).bind ((reads_natural h).map _)
  | declare count => exact (reads_variant (by decide)).bind ((reads_natural h).map _)
  | ret => exact (reads_variant (by decide)).bind_pure rfl
  | drop => exact (reads_variant (by decide)).bind_pure rfl

end Image

/-! ## Whole images -/

namespace Code

/-- Code that an image can hold: its own length and the operands of its instructions are below
`2 ^ 64`. -/
structure Storable (code : Code) : Prop where
  size : code.size < UInt64.size
  operands : ∀ i ∈ code.toList, i.Storable

instance (code : Code) : Decidable code.Storable :=
  decidable_of_iff (code.size < UInt64.size ∧ ∀ i ∈ code.toList, i.Storable)
    ⟨fun h => ⟨h.1, h.2⟩, fun h => ⟨h.size, h.operands⟩⟩

variable {code : Code}

/-- The part of an image that follows its version. -/
def payload (code : Code) : List UInt8 :=
  Wire.ofNat code.size ++ code.toList.flatMap Image.ofInstruction

theorem toImage_eq (code : Code) : code.toImage = Image.magic ++ Image.version :: code.payload := by
  simp [toImage, payload]

theorem Storable.reads (h : code.Storable) :
    Wire.Reads Image.instructions code.payload code.toList := by
  have hmany := Wire.reads_many code.toList fun i hi => Image.reads_instruction (h.operands i hi)
  rw [Array.length_toList] at hmany
  exact (Wire.reads_natural h.size).bind hmany

theorem ofImage_versioned (payload : List UInt8) :
    ofImage (Image.magic ++ Image.version :: payload) =
      match Image.instructions payload with
      | .ok (instructions, _) => .ok instructions.toArray
      | .error fault => .error (.malformed fault) := rfl

theorem ofImage_of_length_le {image : List UInt8} (h : image.length ≤ 4) :
    ofImage image = .error .badMagic := by
  unfold ofImage
  split
  · simp only [List.length_cons] at h
    omega
  · rfl

/-- **Images give back what was written.**  The code of an image is read back from it, bit by bit, whatever
bytes follow the image. -/
theorem ofImage_toImage_append (h : code.Storable) (rest : List UInt8) :
    ofImage (code.toImage ++ rest) = .ok code := by
  rw [toImage_eq, List.append_assoc, List.cons_append, ofImage_versioned, h.reads.whole rest]

/-- Every kind of instruction, with operands at the ends of their ranges and names outside of ASCII. -/
def wide : Code :=
  #[.push (.number (-0.0)), .push (.name "größe"), .push (.address 18446744073709551615), .store "",
    .load "→😀", .binary .eq, .jump (-2147483648), .jumpIfFalse 2147483647, .jumpIfTrue (-64),
    .callBuiltin 127, .callUser 128, .declare 16384, .ret, .drop]

theorem ofImage_wide_append : wide.Storable ∧ ofImage (wide.toImage ++ [0x80, 0x00]) = .ok wide := by
  have hstorable : wide.Storable := by decide
  exact ⟨hstorable, ofImage_toImage_append hstorable _⟩

/-- **Images that are cut short are turned down.**  What is left of the image is no image if not even the
version is left, and else bytes are found to be missing. -/
theorem ofImage_truncated (h : code.Storable) {image : List UInt8} (hfront : image <+: code.toImage)
    (hne : image ≠ code.toImage) :
    ofImage image = .error (if image.length ≤ 4 then .badMagic else .malformed .endOfBytes) := by
  by_cases hshort : image.length ≤ 4
  · rw [if_pos hshort, ofImage_of_length_le hshort]
  · rw [if_neg hshort]
    rw [toImage_eq, ← List.singleton_append, ← List.append_assoc] at hfront hne
    -- magic and version are there, so the cut is in what follows
    obtain ⟨front, rfl⟩ : Image.magic ++ [Image.version] <+: image :=
      List.prefix_of_prefix_length_le (List.prefix_append _ _) hfront (Nat.lt_of_not_le hshort)
    have hfront' : front <+: code.payload := (List.prefix_append_right_inj _).1 hfront
    have hne' : front ≠ code.payload := fun hsame => hne (congrArg _ hsame)
    rw [List.append_assoc, List.singleton_append, ofImage_versioned, h.reads.cut hfront' hne']

/-- The image of that code, cut inside of the largest address. -/
theorem ofImage_wide_truncated :
    wide.Storable ∧ wide.toImage.take 30 <+: wide.toImage ∧ wide.toImage.take 30 ≠ wide.toImage ∧
      ofImage (wide.toImage.take 30) = .error (.malformed .endOfBytes) := by
  have hstorable : wide.Storable := by decide
  have hfront := List.take_prefix 30 wide.toImage
  have hlength : (wide.toImage.take 30).length = 30 ∧ wide.toImage.length = 76 := by decide +kernel
  have hne : wide.toImage.take 30 ≠ wide.toImage := fun h => by
    rw [h] at hlength
    omega
  have hcut := ofImage_truncated hstorable hfront hne
  rw [if_neg (by omega)] at hcut
  exact ⟨hstorable, hfront, hne, hcut⟩

end Code

end StackScript
