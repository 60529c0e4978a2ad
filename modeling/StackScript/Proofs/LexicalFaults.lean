import Mathlib.Data.List.TakeWhile
import StackScript.Proofs.Lexemes

/-!
# Where source text cannot be cut

Cutting source text into tokens fails at a character that no token starts with, and nowhere else
(`Token.ofSource_eq_error_iff`).  Up to that character the text is blanks and longest spellings, as it is in a text
that can be cut.

The scanners never stop inside of a lexeme: what is scanned from a digit on is a numeral whatever follows it
(`Lexer.isNumeral_scanned`), and every other character that starts something is the first character of a symbol or
word that is complete by itself (`Lexer.lexeme_cases`).  Conversely, the longest spelling at the front of some input is
the lexeme that is found there (`Lexer.exists_lexeme`).
-/

namespace StackScript

namespace Lexer

/-! ## Runs of characters -/

/-- Characters of a class are the longest run at the front if no other one follows. -/
theorem takeWhile_append_of_head {p : Char → Bool} {cs rest : List Char} (hall : ∀ c ∈ cs, p c = true)
    (hhead : ∀ c, rest.head? = some c → p c = false) : (cs ++ rest).takeWhile p = cs := by
  rw [List.takeWhile_append_of_pos hall]
  cases rest with
  | nil => rw [List.takeWhile_nil, List.append_nil]
  | cons c rest => rw [List.takeWhile_cons_of_neg (Bool.eq_false_iff.1 (hhead c rfl)), List.append_nil]

theorem dropWhile_append_of_head {p : Char → Bool} {cs rest : List Char} (hall : ∀ c ∈ cs, p c = true)
    (hhead : ∀ c, rest.head? = some c → p c = false) : (cs ++ rest).dropWhile p = rest := by
  rw [List.dropWhile_append_of_pos hall]
  cases rest with
  | nil => rfl
  | cons c rest => rw [List.dropWhile_cons_of_neg (Bool.eq_false_iff.1 (hhead c rfl))]

/-- Nothing but blanks: spaces, tabs and line breaks. -/
abbrev AllBlank (cs : List Char) : Prop :=
  ∀ c ∈ cs, c ∈ [' ', '\t', '\r', '\n']

theorem isSpace_iff {c : Char} : isSpace c = true ↔ c ∈ [' ', '\t', '\r', '\n'] := by
  simp [isSpace, or_assoc]

theorem AllBlank.isSpace {cs : List Char} (h : AllBlank cs) : ∀ c ∈ cs, isSpace c = true :=
  fun c hc => isSpace_iff.2 (h c hc)

/-! ## Numerals -/

theorem numeral?_whole {digits : List Char} (hne : digits ≠ []) (hdigits : ∀ d ∈ digits, d.isDigit = true) :
    Decimal.numeral? digits = some (Float.ofScientific (Nat.ofDigitChars 10 digits 0) false 0) := by
  have htake : digits.takeWhile Char.isDigit = digits := List.takeWhile_eq_self_iff.2 hdigits
  have hdrop : digits.dropWhile Char.isDigit = [] := List.dropWhile_eq_nil_iff.2 hdigits
  obtain ⟨d, digits, rfl⟩ := List.exists_cons_of_ne_nil hne
  rw [Decimal.numeral?, htake, hdrop]

theorem numeral?_fractional {digits fraction : List Char} (hne : digits ≠ [])
    (hdigits : ∀ d ∈ digits, d.isDigit = true) (hne' : fraction ≠ [])
    (hfraction : ∀ d ∈ fraction, d.isDigit = true) :
    Decimal.numeral? (digits ++ '.' :: fraction) =
      some (Float.ofScientific (Nat.ofDigitChars 10 (digits ++ fraction) 0) true fraction.length) := by
  have hpoint : ∀ c, ('.' :: fraction).head? = some c → c.isDigit = false := by
    rintro c ⟨⟩
    rfl
  have hall : (!fraction.isEmpty && fraction.all Char.isDigit) = true := by
    rw [List.isEmpty_eq_false_iff.2 hne', List.all_eq_true.2 hfraction]
    rfl
  have htake := takeWhile_append_of_head hdigits hpoint
  have hdrop := dropWhile_append_of_head hdigits hpoint
  obtain ⟨d, digits, rfl⟩ := List.exists_cons_of_ne_nil hne
  rw [Decimal.numeral?, htake, hdrop]
  exact if_pos hall

/-- Every numeral can be read. -/
theorem exists_numeral? {text : List Char} (h : IsNumeral text) : ∃ value, Decimal.numeral? text = some value := by
  obtain ⟨digits, hne, hdigits, rfl | ⟨fraction, rfl, hne', hfraction⟩⟩ := h
  · exact ⟨_, numeral?_whole hne hdigits⟩
  · exact ⟨_, numeral?_fractional hne hdigits hne' hfraction⟩

/-- What is split off after digits is nothing, or a point and digits. -/
theorem fraction_cases (cs : List Char) :
    (fraction cs).1 = [] ∨
      ∃ digits, (fraction cs).1 = '.' :: digits ∧ digits ≠ [] ∧ ∀ d ∈ digits, d.isDigit = true := by
  unfold fraction
  split
  · next d cs =>
    split
    · next hd => exact .inr ⟨_, rfl, List.cons_ne_nil _ _, List.forall_mem_cons.2 ⟨hd, forall_mem_takeWhile⟩⟩
    · exact .inl rfl
  · exact .inl rfl

variable {c : Char} {cs : List Char}

/-- What is scanned from a digit on is a numeral, whatever follows. -/
theorem isNumeral_scanned (hc : c.isDigit = true) (cs : List Char) :
    IsNumeral (c :: cs.takeWhile Char.isDigit ++ (fraction (cs.dropWhile Char.isDigit)).1) := by
  refine ⟨c :: cs.takeWhile Char.isDigit, List.cons_ne_nil _ _,
    List.forall_mem_cons.2 ⟨hc, forall_mem_takeWhile⟩, ?_⟩
  rcases fraction_cases (cs.dropWhile Char.isDigit) with hnone | ⟨digits, hsome, hne, hdigits⟩
  · rw [hnone, List.append_nil]
    exact .inl rfl
  · rw [hsome]
    exact .inr ⟨digits, rfl, hne, hdigits⟩

/-- A digit always starts a number. -/
theorem exists_numberLexeme (hc : c.isDigit = true) (cs : List Char) : ∃ l, numberLexeme c cs = .ok l := by
  obtain ⟨value, hvalue⟩ := exists_numeral? (isNumeral_scanned hc cs)
  rw [numberLexeme]
  split
  · exact ⟨_, rfl⟩
  · next hnone =>
    rw [hvalue] at hnone
    cases hnone

/-! ## Characters that start nothing -/

/-- A character that no token starts with: no blank, no letter, no digit, no underscore, and not the first character
of any operator or mark. -/
structure StartsNothing (c : Char) : Prop where
  blank : c ∉ [' ', '\t', '\r', '\n']
  letter : c.isAlpha = false
  digit : c.isDigit = false
  underscore : c ≠ '_'
  operator : ∀ op : Operator, op.symbol.toList.head? ≠ some c
  mark : ∀ m : Mark, m.spelling.toList.head? ≠ some c

/-- Only operators and marks are found as symbols. -/
theorem symbol_of_symbolLexeme? {l : Lexeme (c :: cs)} (h : symbolLexeme? c cs = some l) :
    (∃ op, l.token = .operator op ∧ op.symbol.toList = l.text) ∨
      ∃ m, l.token = .mark m ∧ m.spelling.toList = l.text := by
  unfold symbolLexeme? at h
  split at h
  case h_17 => cases h
  all_goals
    cases h
    first | exact .inl ⟨_, rfl, rfl⟩ | exact .inr ⟨_, rfl, rfl⟩

theorem head?_text {input : List Char} (l : Lexeme input) : l.text.head? = input.head? := by
  obtain ⟨token, text, rest, rfl, hne⟩ := l
  obtain ⟨d, text, rfl⟩ := List.exists_cons_of_ne_nil hne
  rfl

/-- Symbols are found exactly at the first characters of operators and marks. -/
theorem symbolLexeme?_eq_none_iff :
    symbolLexeme? c cs = none ↔
      (∀ op : Operator, op.symbol.toList.head? ≠ some c) ∧ ∀ m : Mark, m.spelling.toList.head? ≠ some c := by
  constructor
  · intro h
    unfold symbolLexeme? at h
    split at h
    case h_17 =>
      refine ⟨fun op hop => ?_, fun m hm => ?_⟩
      · cases op <;> cases hop <;> contradiction
      · cases m <;> cases hm <;> contradiction
    all_goals cases h
  · rintro ⟨hop, hm⟩
    cases h : symbolLexeme? c cs with
    | none => rfl
    | some l =>
      have hhead : l.text.head? = some c := head?_text l
      rcases symbol_of_symbolLexeme? h with ⟨op, -, htext⟩ | ⟨m, -, htext⟩
      · exact absurd (htext ▸ hhead) (hop op)
      · exact absurd (htext ▸ hhead) (hm m)

/-- A lexeme is missing only at a character that starts nothing. -/
theorem lexeme_cases (hc : isSpace c = false) (cs : List Char) :
    (∃ l, lexeme c cs = .ok l) ∨ (lexeme c cs = .error (.unexpectedChar c) ∧ StartsNothing c) := by
  unfold lexeme
  split
  · exact .inl ⟨_, rfl⟩
  · split
    · next hdigit => exact .inl (exists_numberLexeme hdigit _)
    · next hdigit =>
      split
      · exact .inl ⟨_, rfl⟩
      · next hname =>
        split
        · exact .inl ⟨_, rfl⟩
        · next hsymbol =>
          obtain ⟨hop, hm⟩ := symbolLexeme?_eq_none_iff.1 hsymbol
          rw [isNameStart_iff, not_or] at hname
          refine .inr ⟨rfl, ?_, Bool.eq_false_iff.2 hname.1, Bool.eq_false_iff.2 hdigit, hname.2, hop, hm⟩
          rw [← isSpace_iff, hc]
          exact Bool.false_ne_true

theorem StartsNothing.not_isNameStart (h : StartsNothing c) : ¬ isNameStart c = true := by
  rw [isNameStart_iff, h.letter, not_or]
  exact ⟨Bool.false_ne_true, h.underscore⟩

/-- A character that starts nothing is unexpected. -/
theorem StartsNothing.lexeme_eq (h : StartsNothing c) (cs : List Char) :
    lexeme c cs = .error (.unexpectedChar c) := by
  have hslash : c ≠ '/' := fun hc => h.operator .div (hc ▸ rfl)
  unfold lexeme
  split
  · exact absurd rfl hslash
  · rw [if_neg (Bool.eq_false_iff.1 h.digit), if_neg h.not_isNameStart,
      symbolLexeme?_eq_none_iff.2 ⟨h.operator, h.mark⟩]

/-! ## Spellings and blanks -/

theorem isNamePart_of_isSpace (h : isSpace c = true) : isNamePart c = false := by
  rw [isSpace_iff] at h
  simp only [List.mem_cons, List.not_mem_nil, or_false] at h
  rcases h with rfl | rfl | rfl | rfl <;> decide

theorem isNamePart_of_isDigit (h : c.isDigit = true) : isNamePart c = true := by
  rw [isNamePart, Char.isAlphanum, h, Bool.or_true, Bool.true_or]

theorem isNamePart_of_isWord {text : List Char} (h : isWord text = true) : ∀ d ∈ text, isNamePart d = true := by
  cases text with
  | nil => cases h
  | cons d ds =>
    rw [isWord, Bool.and_eq_true_iff, List.all_eq_true] at h
    exact List.forall_mem_cons.2 ⟨isNamePart_of_isNameStart h.1, h.2⟩

theorem any_isSpace_operator (op : Operator) : op.symbol.toList.any isSpace = false := by
  cases op <;> decide

theorem any_isSpace_mark (m : Mark) : m.spelling.toList.any isSpace = false := by
  cases m <;> decide

theorem ne_nil_of_spelledAs {token : Token} {text : List Char} (h : token.SpelledAs text) : text ≠ [] := by
  rintro rfl
  rcases kinds_of_spelledAs h with hword | hsymbol | ⟨digits, hne, -, htext | ⟨_, htext, -⟩⟩ | ⟨body, htext, -⟩
  · cases hword
  · cases hsymbol
  · exact hne htext.symm
  · exact absurd htext.symm (List.append_ne_nil_of_right_ne_nil _ (List.cons_ne_nil _ _))
  · cases htext

/-- Blanks are found in comments only. -/
theorem isComment_of_isSpace {token : Token} {text : List Char} (h : token.SpelledAs text) (hmem : c ∈ text)
    (hc : isSpace c = true) : token.isComment = true := by
  have hpart : ¬ isNamePart c = true := by
    rw [isNamePart_of_isSpace hc]
    exact Bool.false_ne_true
  cases h with
  | fixed hspelling =>
    cases token with
    | keyword word =>
      cases hspelling
      exact absurd (isNamePart_of_isWord (isWord_keyword word) c hmem) hpart
    | operator op =>
      cases hspelling
      exact absurd hc (List.any_eq_false.1 (any_isSpace_operator op) c hmem)
    | mark m =>
      cases hspelling
      exact absurd hc (List.any_eq_false.1 (any_isSpace_mark m) c hmem)
    | _ => cases hspelling
  | name hstart hparts =>
    rcases List.mem_cons.1 hmem with rfl | hmem
    · exact absurd (isNamePart_of_isNameStart (isNameStart_iff.2 hstart)) hpart
    · exact absurd (isNamePart_iff.2 (hparts c hmem)) hpart
  | whole hne hdigits => exact absurd (isNamePart_of_isDigit (hdigits c hmem)) hpart
  | fractional hne hdigits hne' hfraction =>
    rcases List.mem_append.1 hmem with hmem | hmem
    · exact absurd (isNamePart_of_isDigit (hdigits c hmem)) hpart
    · rcases List.mem_cons.1 hmem with rfl | hmem
      · cases hc
      · exact absurd (isNamePart_of_isDigit (hfraction c hmem)) hpart
  | comment => rfl

/-- A comment is spelled with two slashes in front and without a line break. -/
theorem isComment_text {token : Token} {text : List Char} (h : token.SpelledAs text)
    (hcomment : token.isComment = true) : IsComment text := by
  cases h with
  | fixed hspelling => cases token <;> cases hspelling <;> cases hcomment
  | comment hline => exact ⟨_, rfl, hline⟩
  | _ => cases hcomment

/-- No spelling starts with a blank. -/
theorem isSpace_of_spelledAs {token : Token} (h : token.SpelledAs (c :: cs)) : isSpace c = false := by
  cases hc : isSpace c with
  | false => rfl
  | true =>
    obtain ⟨body, htext, -⟩ := isComment_text h (isComment_of_isSpace h List.mem_cons_self hc)
    cases htext
    cases hc

/-- Every spelling starts with a character that starts something. -/
theorem not_startsNothing {token : Token} {text : List Char} (h : token.SpelledAs text) (hhead : text.head? = some c) :
    ¬ StartsNothing c := by
  intro hc
  cases h with
  | fixed hspelling =>
    cases token with
    | keyword word =>
      cases hspelling
      obtain ⟨cs, htext⟩ := List.head?_eq_some_iff.1 hhead
      have hword := isWord_keyword word
      rw [htext] at hword
      exact hc.not_isNameStart (Bool.and_eq_true_iff.1 hword).1
    | operator op =>
      cases hspelling
      exact hc.operator op hhead
    | mark m =>
      cases hspelling
      exact hc.mark m hhead
    | _ => cases hspelling
  | name hstart =>
    cases hhead
    exact hc.not_isNameStart (isNameStart_iff.2 hstart)
  | whole hne hdigits | fractional hne hdigits =>
    obtain ⟨d, digits, rfl⟩ := List.exists_cons_of_ne_nil hne
    cases hhead
    exact Bool.eq_false_iff.1 hc.digit (hdigits _ List.mem_cons_self)
  | comment =>
    cases hhead
    exact hc.operator .div rfl

/-! ## Lexemes are found -/

/-- The longest spelling at the front of some input is found there. -/
theorem exists_lexeme {token : Token} {text rest : List Char} (h : token.SpelledAs (c :: text))
    (hlongest : Longest (c :: text) rest) :
    ∃ l, lexeme c (text ++ rest) = .ok l ∧ l.text = c :: text ∧ l.rest = rest := by
  rcases lexeme_cases (isSpace_of_spelledAs h) (text ++ rest) with ⟨l, hl⟩ | ⟨-, hnothing⟩
  · have hfits := fits_lexeme hl
    have hle := hfits.longest token (c :: text) h (List.prefix_append (c :: text) rest)
    have hge := hlongest l.token l.text hfits.spelled ⟨l.rest, l.text_append_rest⟩
    exact ⟨l, hl, List.append_inj l.text_append_rest (Nat.le_antisymm hge hle)⟩
  · exact absurd hnothing (not_startsNothing h rfl)

/-- If the next character starts nothing, the text cannot be cut. -/
theorem tokensFrom_of_startsNothing {p : Position} {text : List Char} (hnext : text.dropWhile isSpace = c :: cs)
    (hc : StartsNothing c) : tokensFrom p text = .error (.unexpectedChar c) := by
  rw [tokensFrom_of_next hnext, hc.lexeme_eq]
  rfl

/-- If what follows the next lexeme cannot be cut, neither can the text. -/
theorem tokensFrom_of_fault {p : Position} {text : List Char} {l : Lexeme (c :: cs)} {fault : LexFault}
    (hnext : text.dropWhile isSpace = c :: cs) (hl : lexeme c cs = .ok l)
    (hrest : ∀ p, tokensFrom p l.rest = .error fault) : tokensFrom p text = .error fault := by
  rw [tokensFrom_of_next hnext, hl]
  show (tokensFrom _ l.rest >>= _) = _
  rw [hrest]
  rfl

/-- A text that stands in front of another one is cut as far as it goes: it is blanks and spellings in turn, and each
spelling is the longest that can be found where it stands. -/
inductive CutBefore (rest : List Char) : List Char → Prop where
  | stop {blanks : List Char} (hblanks : AllBlank blanks) : CutBefore rest blanks
  | next {blanks text more : List Char} {token : Token} (hblanks : AllBlank blanks)
      (hspelled : token.SpelledAs text) (hlongest : Longest text (more ++ rest)) (hmore : CutBefore rest more) :
      CutBefore rest (blanks ++ (text ++ more))

theorem cases_of_bind_eq_error {α β : Type} {result : Except LexFault α} {f : α → Except LexFault β}
    {fault : LexFault} (h : (result >>= f) = .error fault) :
    result = .error fault ∨ ∃ a, result = .ok a ∧ f a = .error fault := by
  cases result with
  | error fault' =>
    cases h
    exact .inl rfl
  | ok a => exact .inr ⟨a, rfl, h⟩

/-- A lexeme that follows blanks is cut off in front of the rest. -/
theorem CutBefore.cons {blanks front rest input : List Char} {l : Lexeme input}
    (hblanks : AllBlank blanks) (hl : l.Fits) (hrest : l.rest = front ++ rest)
    (hfront : CutBefore rest front) : CutBefore rest (blanks ++ (l.text ++ front)) := by
  refine .next hblanks hl.spelled ?_ hfront
  rw [← hrest, Longest, l.text_append_rest]
  exact hl.longest

/-- A text that cannot be cut is cut up to a character that starts nothing. -/
theorem exists_of_tokensFrom_eq_error {p : Position} {text : List Char} {fault : LexFault}
    (h : tokensFrom p text = .error fault) :
    ∃ front c rest, text = front ++ c :: rest ∧ CutBefore (c :: rest) front ∧ StartsNothing c ∧
      fault = .unexpectedChar c := by
  have htext : text.takeWhile isSpace ++ text.dropWhile isSpace = text := List.takeWhile_append_dropWhile
  rw [tokensFrom] at h
  split at h
  · cases h
  · next c cs hnext =>
    rw [hnext] at htext
    rcases cases_of_bind_eq_error h with hl | ⟨l, hl, h⟩
    · have hspace : isSpace c = false := eq_false_of_head?_dropWhile (congrArg List.head? hnext)
      rcases lexeme_cases hspace cs with ⟨l, hl'⟩ | ⟨hl', hc⟩
      · rw [hl] at hl'
        cases hl'
      · rw [hl] at hl'
        cases hl'
        exact ⟨text.takeWhile isSpace, c, cs, htext.symm, .stop (mem_blanks text), hc, rfl⟩
    · rcases cases_of_bind_eq_error h with hmore | ⟨more, -, h⟩
      · have hlt : l.rest.length < text.length := by
          refine Nat.lt_of_lt_of_le (Lexeme.length_rest_lt l) ?_
          rw [← hnext]
          exact length_dropWhile_le isSpace text
        obtain ⟨front, d, rest, hrest, hfront, hd, hfault⟩ := exists_of_tokensFrom_eq_error hmore
        refine ⟨text.takeWhile isSpace ++ (l.text ++ front), d, rest, ?_, ?_, hd, hfault⟩
        · rw [List.append_assoc, List.append_assoc, ← hrest, l.text_append_rest, htext]
        · exact .cons (mem_blanks text) (fits_lexeme hl) hrest hfront
      · cases h
termination_by text.length
decreasing_by exact hlt

/-- A character that starts nothing is the fault of every text that is cut up to it. -/
theorem CutBefore.tokensFrom_eq {front : List Char} {rest : List Char} (h : CutBefore (c :: rest) front)
    (hc : StartsNothing c) (p : Position) : tokensFrom p (front ++ c :: rest) = .error (.unexpectedChar c) := by
  induction h generalizing p with
  | stop hblanks =>
    have hhead : ∀ d, (c :: rest).head? = some d → isSpace d = false := by
      rintro d ⟨⟩
      exact Bool.eq_false_iff.2 fun hspace => hc.blank (isSpace_iff.1 hspace)
    exact tokensFrom_of_startsNothing (dropWhile_append_of_head hblanks.isSpace hhead) hc
  | @next blanks text more token hblanks hspelled hlongest hmore ih =>
    obtain ⟨d, text, rfl⟩ := List.exists_cons_of_ne_nil (ne_nil_of_spelledAs hspelled)
    obtain ⟨l, hl, -, hrest⟩ := exists_lexeme hspelled hlongest
    refine tokensFrom_of_fault ?_ hl fun p => ?_
    · rw [List.append_assoc, List.append_assoc]
      refine dropWhile_append_of_head hblanks.isSpace ?_
      rintro d ⟨⟩
      exact isSpace_of_spelledAs hspelled
    · rw [hrest]
      exact ih p

end Lexer

/-- **Source text cannot be cut into tokens exactly if it is cut up to a character that starts nothing**, and then
that character is the fault.  Numerals are never at fault. -/
theorem Token.ofSource_eq_error_iff {source : String} {fault : LexFault} :
    Token.ofSource source = .error fault ↔
      ∃ front c rest, source.toList = front ++ c :: rest ∧ Lexer.CutBefore (c :: rest) front ∧
        Lexer.StartsNothing c ∧ fault = .unexpectedChar c := by
  refine ⟨Lexer.exists_of_tokensFrom_eq_error, ?_⟩
  rintro ⟨front, c, rest, hsource, hfront, hc, rfl⟩
  rw [Token.ofSource, hsource]
  exact hfront.tokensFrom_eq hc _

end StackScript
