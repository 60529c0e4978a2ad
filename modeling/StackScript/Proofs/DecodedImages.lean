import StackScript.Proofs.Images

/-!
# Reading an image brings it into normal form

Readers accept more than writers produce: numbers with groups of zeros at the end, and any bytes after the image.  What
they get is always something that an image can hold, and its own image is not longer than the bytes that were read
(`Code.toImage_of_ofImage`).  So writing code that has been read drops such groups and bytes, and nothing else.

`Wire.Accepts` says of a reader what holds of every value that it gets and of the number of bytes that it takes.

## Shape of the proof

* `Wire.Accepts.bind`         — the numbers of bytes add up along sequences of readers.
* `Wire.accepts_number`       — the groups of seven bits: each byte that is read pays for one that is written.
* `Image.accepts_instruction` — one case for each number of a variant.
-/

namespace StackScript

namespace Wire

variable {α β : Type}

/-! ## What readers accept -/

/-- Whatever bytes the reader is given, a value that it gets from the first of them has a property together with the
number of these bytes. -/
def Accepts (reader : Reader α) (property : α → Nat → Prop) : Prop :=
  ∀ bytes a rest, reader bytes = .ok (a, rest) → ∃ used, bytes = used ++ rest ∧ property a used.length

/-- The value can be stored, and its own bytes are not more than a number of them. -/
def Within (storable : α → Prop) (write : α → List UInt8) (a : α) (n : Nat) : Prop :=
  storable a ∧ (write a).length ≤ n

theorem bind_eq_ok {x : Reader α} {f : α → Reader β} {bytes rest : List UInt8} {b : β}
    (h : (x >>= f) bytes = .ok (b, rest)) : ∃ a rest', x bytes = .ok (a, rest') ∧ f a rest' = .ok (b, rest) := by
  cases hx : x bytes with
  | error fault =>
    rw [bind_error hx] at h
    cases h
  | ok result =>
    obtain ⟨a, rest'⟩ := result
    rw [bind_ok hx] at h
    exact ⟨a, rest', rfl, h⟩

namespace Accepts

variable {property : α → Nat → Prop} {property' : β → Nat → Prop}

theorem pure {a : α} (h : property a 0) : Accepts (Pure.pure a) property := by
  rintro bytes _ _ ⟨⟩
  exact ⟨[], rfl, h⟩

theorem throw (fault : Fault) : Accepts (throw fault : Reader α) property := by
  rintro bytes a rest ⟨⟩

theorem bind {x : Reader α} {f : α → Reader β} (hx : Accepts x property)
    (hf : ∀ a n, property a n → Accepts (f a) fun b n' => property' b (n + n')) : Accepts (x >>= f) property' := by
  intro bytes b rest h
  obtain ⟨a, rest', hread, hrest⟩ := bind_eq_ok h
  obtain ⟨used, rfl, ha⟩ := hx bytes a rest' hread
  obtain ⟨used', rfl, hb⟩ := hf a used.length ha rest' b rest hrest
  refine ⟨used ++ used', (List.append_assoc _ _ _).symm, ?_⟩
  rwa [List.length_append]

theorem mono {x : Reader α} {stronger : α → Nat → Prop} (hx : Accepts x stronger)
    (h : ∀ a n, stronger a n → property a n) : Accepts x property := by
  intro bytes a rest hread
  obtain ⟨used, hbytes, ha⟩ := hx bytes a rest hread
  exact ⟨used, hbytes, h a used.length ha⟩

theorem map {x : Reader α} {g : α → β} (hx : Accepts x property) (hg : ∀ a n, property a n → property' (g a) n) :
    Accepts (x >>= fun a => Pure.pure (g a)) property' :=
  hx.bind fun a n ha => pure (hg a n ha)

end Accepts

/-- Values one after another take as many bytes as they take together. -/
theorem accepts_many {reader : Reader α} {storable : α → Prop} {write : α → List UInt8}
    (h : Accepts reader (Within storable write)) (count : Nat) :
    Accepts (many reader count) fun values n =>
      values.length = count ∧ (∀ a ∈ values, storable a) ∧ (values.flatMap write).length ≤ n := by
  induction count with
  | zero => exact .pure ⟨rfl, List.forall_mem_nil _, Nat.le_refl 0⟩
  | succ count ih =>
    refine h.bind fun a n ha => ih.map fun values n' hvalues => ?_
    obtain ⟨hcount, hstorable, hlength⟩ := hvalues
    refine ⟨congrArg Nat.succ hcount, List.forall_mem_cons.2 ⟨ha.1, hstorable⟩, ?_⟩
    rw [List.flatMap_cons, List.length_append]
    exact Nat.add_le_add ha.2 hlength

/-! ## Numbers -/

theorem room_pos (top bytes : Nat) : 0 < room top (bytes + 1) := by
  induction bytes with
  | zero => exact Nat.succ_pos top
  | succ bytes ih => exact Nat.mul_pos (by decide) ih

theorem length_ofNat_of_lt {n : Nat} (h : n < 128) : (ofNat n).length = 1 := by
  rw [ofNat_of_lt h, List.length_singleton]

/-- A further group in front needs one more byte at most. -/
theorem length_ofNat_group {low : Nat} (h : low < 128) (high : Nat) :
    (ofNat (low + 128 * high)).length ≤ (ofNat high).length + 1 := by
  by_cases hn : low + 128 * high < 128
  · rw [length_ofNat_of_lt hn]
    exact Nat.le_add_left _ _
  · rw [ofNat_of_le (Nat.le_of_not_lt hn), List.length_cons, show (low + 128 * high) / 128 = high by omega]

theorem lt_room_of_last {top bytes n : Nat} (hn : n < 128) (htop : bytes = 0 → n ≤ top) :
    n < room top (bytes + 1) := by
  cases bytes with
  | zero => exact Nat.lt_succ_of_le (htop rfl)
  | succ bytes => exact Nat.lt_of_lt_of_le hn (Nat.le_mul_of_pos_right 128 (room_pos top bytes))

theorem group_lt_room {top bytes low high : Nat} (hlow : low < 128) (hhigh : high < room top bytes) :
    low + 128 * high < room top (bytes + 1) := by
  cases bytes with
  | zero => exact absurd hhigh (Nat.not_lt_zero high)
  | succ bytes =>
    show low + 128 * high < 128 * room top (bytes + 1)
    omega

/-- A reader of numbers has room for every number that it gets, and the number's own bytes are not more than those that
it took. -/
theorem accepts_number (top bytes : Nat) : Accepts (number top bytes) (Within (· < room top bytes) ofNat) := by
  induction bytes with
  | zero =>
    intro input n rest h
    cases h
  | succ bytes ih =>
    intro input n rest h
    cases input with
    | nil => cases h
    | cons b input =>
      by_cases hb : b.toNat < 128
      · rw [number, if_pos hb] at h
        split at h
        · cases h
        · rename_i htop
          cases h
          refine ⟨[b], rfl, lt_room_of_last hb fun hz => ?_, Nat.le_of_eq (length_ofNat_of_lt hb)⟩
          exact Nat.le_of_not_lt fun hlt => htop ⟨hz, hlt⟩
      · rw [number_more top bytes (Nat.le_of_not_lt hb)] at h
        cases hread : number top bytes input with
        | error fault =>
          rw [hread] at h
          cases h
        | ok result =>
          rw [hread] at h
          cases h
          obtain ⟨used, hinput, hroom, hlength⟩ := ih input result.1 result.2 hread
          have hlow : b.toNat - 128 < 128 := by
            have := b.toNat_lt
            omega
          refine ⟨b :: used, congrArg (b :: ·) hinput, group_lt_room hlow hroom, ?_⟩
          exact (length_ofNat_group hlow result.1).trans (Nat.succ_le_succ hlength)

theorem accepts_natural : Accepts natural (Within (· < UInt64.size) ofNat) :=
  accepts_number 1 10

theorem accepts_word : Accepts word (Within (· < UInt32.size) ofNat) :=
  accepts_number 15 5

/-- Numbers below `2 ^ 32` stand for different offsets, so that an offset is written as the number that it was read
as. -/
theorem accepts_int32 : Accepts int32 (Within (fun _ => True) ofInt32) := by
  refine accepts_word.map fun n length hn => ⟨trivial, ?_⟩
  obtain ⟨hsize, hlength⟩ := hn
  have hword : n < 4294967296 := hsize
  suffices h : ofInt32 (Int32.ofInt (if n % 2 = 0 then ((n / 2 : Nat) : Int) else -((n / 2 + 1 : Nat) : Int))) =
      ofNat n by
    rwa [h]
  rw [ofInt32, Int32.toInt_ofInt_of_le (by split <;> omega) (by split <;> omega)]
  congr 1
  split <;> split <;> omega

/-! ## Bytes, floats and texts -/

theorem accepts_take (count : Nat) : Accepts (take count) fun bytes n => bytes.length = n ∧ n = count := by
  intro input bytes rest h
  rw [take] at h
  split at h
  · rename_i hcount
    cases h
    have hlength := List.length_take_of_le hcount
    exact ⟨input.take count, (List.take_append_drop count input).symm, rfl, hlength⟩
  · cases h

theorem accepts_float : Accepts float (Within (fun _ => True) ofFloat) := by
  refine (accepts_take 8).map fun bytes n hbytes => ⟨trivial, ?_⟩
  simp [ofFloat, hbytes.2]

theorem toUTF8_of_fromUTF8? {bytes : ByteArray} {content : String} (h : String.fromUTF8? bytes = some content) :
    content.toUTF8 = bytes := by
  unfold String.fromUTF8? at h
  split at h
  · cases h
    rfl
  · cases h

/-- A text is written with the bytes that it was read from, after their number. -/
theorem accepts_text : Accepts text (Within (fun content => content.utf8ByteSize < UInt64.size) ofText) := by
  refine accepts_natural.bind fun count n hcount => (accepts_take count).bind fun bytes n' hbytes => ?_
  obtain ⟨hlength, rfl⟩ := hbytes
  split
  · rename_i content hcontent
    have hutf8 := toUTF8_of_fromUTF8? hcontent
    have hsize : content.utf8ByteSize = bytes.length := by
      rw [← String.size_toByteArray, show content.toByteArray = _ from hutf8]
      rfl
    refine .pure ⟨?_, ?_⟩
    · show content.utf8ByteSize < UInt64.size
      rw [hsize, hlength]
      exact hcount.1
    · rw [ofText, hutf8, List.length_append, hlength]
      exact Nat.add_le_add_right hcount.2 _
  · exact .throw _

end Wire

/-! ## Instructions -/

namespace Image

open Wire

variable {α β : Type}

/-- An operand and the number of its variant, which has been read before. -/
theorem accepts_operand {x : Reader α} {storable : α → Prop} {write : α → List UInt8} {storable' : β → Prop}
    {write' : β → List UInt8} {g : α → β} {variant n : Nat} (hx : Accepts x (Within storable write))
    (hvariant : (ofNat variant).length ≤ n) (hstorable : ∀ a, storable a → storable' (g a))
    (hwrite : ∀ a, write' (g a) = ofNat variant ++ write a) :
    Accepts (x >>= fun a => pure (g a)) fun b n' => Within storable' write' b (n + n') := by
  refine hx.map fun a n' ha => ⟨hstorable a ha.1, ?_⟩
  rw [hwrite, List.length_append]
  exact Nat.add_le_add hvariant ha.2

theorem accepts_operator : Accepts operator (Within (fun _ => True) ofOperator) := by
  have hnodup : Operator.all.Nodup := by decide
  refine accepts_word.bind fun place n hplace => ?_
  split
  · rename_i op hop
    obtain ⟨hlt, rfl⟩ := List.getElem?_eq_some_iff.1 hop
    refine .pure ⟨trivial, ?_⟩
    rw [ofOperator, hnodup.idxOf_getElem place hlt]
    exact hplace.2
  · exact .throw _

theorem accepts_constant : Accepts constant (Within Constant.Storable ofConstant) := by
  refine accepts_word.bind fun variant n hvariant => ?_
  have hn := hvariant.2
  split
  · exact accepts_operand accepts_float hn (fun _ h => h) fun _ => rfl
  · exact accepts_operand accepts_text hn (fun _ h => h) fun _ => rfl
  · exact accepts_operand accepts_natural hn (fun _ h => h) fun _ => rfl
  · exact .throw _

/-- Every instruction that is read can be stored, whatever bytes it was read from. -/
theorem accepts_instruction : Accepts instruction (Within Instruction.Storable ofInstruction) := by
  refine accepts_word.bind fun variant n hvariant => ?_
  have hn := hvariant.2
  split
  · exact accepts_operand accepts_constant hn (fun _ h => h) fun _ => rfl
  · exact accepts_operand accepts_text hn (fun _ h => h) fun _ => rfl
  · exact accepts_operand accepts_text hn (fun _ h => h) fun _ => rfl
  · exact accepts_operand accepts_operator hn (fun _ h => h) fun _ => rfl
  · exact accepts_operand accepts_int32 hn (fun _ h => h) fun _ => rfl
  · exact accepts_operand accepts_int32 hn (fun _ h => h) fun _ => rfl
  · exact accepts_operand accepts_int32 hn (fun _ h => h) fun _ => rfl
  · exact accepts_operand accepts_natural hn (fun _ h => h) fun _ => rfl
  · exact accepts_operand accepts_natural hn (fun _ h => h) fun _ => rfl
  · exact accepts_operand accepts_natural hn (fun _ h => h) fun _ => rfl
  · exact .pure ⟨trivial, hn⟩
  · exact .pure ⟨trivial, hn⟩
  · exact .throw _

/-- What is read as the payload of an image is the payload of some code, but for its length. -/
theorem accepts_instructions : Accepts instructions fun list n =>
    Code.Storable list.toArray ∧ (Code.payload list.toArray).length ≤ n := by
  refine accepts_natural.bind fun count n hcount => (accepts_many accepts_instruction count).mono ?_
  rintro list n' ⟨rfl, hoperands, hlength⟩
  refine ⟨⟨hcount.1, hoperands⟩, ?_⟩
  rw [Code.payload, List.length_append]
  exact Nat.add_le_add hcount.2 hlength

end Image

/-! ## Whole images -/

namespace Code

variable {code : Code} {image : List UInt8}

theorem exists_payload (h : ofImage image = .ok code) : ∃ payload rest,
    image = Image.magic ++ Image.version :: payload ∧ Image.instructions payload = .ok (code.toList, rest) := by
  unfold ofImage at h
  split at h
  · rename_i found payload
    split at h
    · cases h
    · rename_i hfound
      split at h
      · rename_i list rest hread
        cases h
        refine ⟨payload, rest, ?_, hread⟩
        rw [Decidable.not_not.1 hfound]
        rfl
      · cases h
  · cases h

/-- **Reading brings images into normal form.**  Whatever bytes code is read from, its own image is not longer than they
are, and the same code is read from that. -/
theorem toImage_of_ofImage (h : ofImage image = .ok code) :
    code.toImage.length ≤ image.length ∧ ofImage code.toImage = .ok code := by
  obtain ⟨payload, rest, rfl, hread⟩ := exists_payload h
  obtain ⟨used, rfl, hstorable, hlength⟩ := Image.accepts_instructions payload code.toList rest hread
  rw [Array.toArray_toList] at hstorable hlength
  constructor
  · rw [toImage_eq]
    simp only [List.length_append, List.length_cons]
    omega
  · have hback := hstorable.reads.whole []
    rw [List.append_nil] at hback
    rw [toImage_eq, ofImage_versioned, hback]

/-- An image with zeros at the end of each of its numbers, and two bytes after its last instruction. -/
def looseImage : List UInt8 :=
  [0x51, 0x4c, 0x42, 0x43, 0x01, 0x84, 0x80, 0x00, 0x80, 0x00, 0x82, 0x00, 0x85, 0x80, 0x80, 0x00,
    0x81, 0x80, 0x80, 0x80, 0x00, 0x82, 0x00, 0xc3, 0xa9, 0x84, 0x00, 0x81, 0x00, 0x8a, 0x00, 0xff, 0xff]

/-- The code of that image. -/
def loose : Code := #[.push (.address 5), .store "é", .jump (-1), .ret]

theorem toImage_loose : ofImage looseImage = .ok loose ∧
    loose.toImage.length ≤ looseImage.length ∧ ofImage loose.toImage = .ok loose := by
  have hread : ofImage looseImage = .ok loose := by cbv
  exact ⟨hread, toImage_of_ofImage hread⟩

end Code

end StackScript
