import StackScript.Token.Lexer

/-!
# How tokens are spelled

Source text is blanks and spellings of tokens in turn, and nothing is lost when it is cut into tokens
(`Token.cuts_of_ofSource`).  `Token.SpelledAs` says how each token can be spelled, and `Lexer.Cuts` what it means that a
text is cut: every spelling is the longest that can be found where it stands, and every token has the position that
counting lines and columns gives.

That a spelling is the longest follows from its first character.  A digit starts only numerals, a letter or an
underscore only words, and with any other character a spelling has at most two characters, comments apart.
-/

namespace StackScript

/-! ## Texts without blank ends -/

/-- A text is some core with blank characters before and after it, and the core has none at its ends. -/
structure Text.Trims (text core : List Char) : Prop where
  parts : ∃ front back, text = front ++ core ++ back ∧ (∀ c ∈ front, isBlank c = true) ∧
    ∀ c ∈ back, isBlank c = true
  first : ∀ c, core.head? = some c → isBlank c = false
  last : ∀ c, core.getLast? = some c → isBlank c = false

theorem forall_mem_takeWhile {p : Char → Bool} {cs : List Char} : ∀ c ∈ cs.takeWhile p, p c = true :=
  List.all_eq_true.1 List.all_takeWhile

theorem eq_false_of_head?_dropWhile {p : Char → Bool} {cs : List Char} {c : Char}
    (h : (cs.dropWhile p).head? = some c) : p c = false := by
  have hhead := List.head?_dropWhile_not p cs
  rwa [h] at hhead

/-- A beginning of which all characters are in a class is not longer than the longest such. -/
theorem length_le_takeWhile {p : Char → Bool} {text input : List Char} (h : text <+: input)
    (hp : ∀ c ∈ text, p c = true) : text.length ≤ (input.takeWhile p).length := by
  obtain ⟨rest, rfl⟩ := h
  rw [List.takeWhile_append_of_pos hp, List.length_append]
  exact Nat.le_add_right _ _

theorem Text.trims_trim (text : List Char) : Trims text (trim text) := by
  have hfront : text = text.takeWhile isBlank ++ text.dropWhile isBlank :=
    List.takeWhile_append_dropWhile.symm
  have hback : text.dropWhile isBlank =
      trim text ++ ((text.dropWhile isBlank).reverse.takeWhile isBlank).reverse := by
    rw [trim, ← List.reverse_append, List.takeWhile_append_dropWhile, List.reverse_reverse]
  refine ⟨⟨text.takeWhile isBlank, ((text.dropWhile isBlank).reverse.takeWhile isBlank).reverse, ?_,
    forall_mem_takeWhile, fun c hc => ?_⟩, fun c hc => ?_, fun c hc => ?_⟩
  · rw [List.append_assoc, ← hback, ← hfront]
  · exact forall_mem_takeWhile c (List.mem_reverse.1 hc)
  · -- the core starts where the blanks before it end
    have hhead : (text.dropWhile isBlank).head? = some c := by
      rw [hback, List.head?_append, hc]
      rfl
    exact eq_false_of_head?_dropWhile hhead
  · rw [trim, List.getLast?_reverse] at hc
    exact eq_false_of_head?_dropWhile hc

/-! ## Spellings -/

/-- The ways to spell a token.  A numeral stands for the number nearest to it. -/
inductive Token.SpelledAs : Token → List Char → Prop where
  | fixed {token : Token} {spelling : String} (h : token.spelling? = some spelling) :
      SpelledAs token spelling.toList
  /-- A name is a letter or an underscore, and then more of them or digits; reserved words are no names. -/
  | name {c : Char} {cs : List Char} (hstart : c.isAlpha = true ∨ c = '_')
      (hparts : ∀ d ∈ cs, d.isAlphanum = true ∨ d = '_')
      (hword : ∀ word : Keyword, word.spelling ≠ String.ofList (c :: cs)) :
      SpelledAs (.identifier (String.ofList (c :: cs))) (c :: cs)
  | whole {digits : List Char} (hne : digits ≠ []) (hdigits : ∀ d ∈ digits, d.isDigit = true) :
      SpelledAs (.number (Float.ofScientific (Nat.ofDigitChars 10 digits 0) false 0)) digits
  | fractional {digits fraction : List Char} (hne : digits ≠ [])
      (hdigits : ∀ d ∈ digits, d.isDigit = true) (hne' : fraction ≠ [])
      (hfraction : ∀ d ∈ fraction, d.isDigit = true) :
      SpelledAs
        (.number (Float.ofScientific (Nat.ofDigitChars 10 (digits ++ fraction) 0) true fraction.length))
        (digits ++ '.' :: fraction)
  /-- A comment goes on to the end of its line; its text has no blank ends. -/
  | comment {body core : List Char} (hline : '\n' ∉ body) (hcore : Text.Trims body core) :
      SpelledAs (.comment (String.ofList core)) ('/' :: '/' :: body)

/-- No longer beginning of the text and what follows it is a spelling. -/
def Lexer.Longest (text rest : List Char) : Prop :=
  ∀ token' text', Token.SpelledAs token' text' → text' <+: text ++ rest → text'.length ≤ text.length

/-- The place behind a text, by counting: its line comes after all line breaks, and its column after all characters
since the last one. -/
def Position.behind (text : List Char) : Position :=
  ⟨1 + text.count '\n', 1 + (text.reverse.takeWhile (· ≠ '\n')).length⟩

/-- A text that stands behind another one is cut into tokens: blanks and longest spellings in turn.  The last token
marks the end. -/
inductive Lexer.Cuts : (before text : List Char) → List Located → Prop where
  | stop {before blanks : List Char} (hblanks : ∀ c ∈ blanks, c ∈ [' ', '\t', '\r', '\n']) :
      Cuts before blanks [⟨.behind (before ++ blanks), .endOfInput⟩]
  | next {before blanks text rest : List Char} {token : Token} {more : List Located}
      (hblanks : ∀ c ∈ blanks, c ∈ [' ', '\t', '\r', '\n']) (hspelled : token.SpelledAs text)
      (hlongest : Longest text rest) (hmore : Cuts (before ++ (blanks ++ text)) rest more) :
      Cuts before (blanks ++ (text ++ rest)) (⟨.behind (before ++ blanks), token⟩ :: more)

/-! ## Kinds of spellings -/

namespace Lexer

/-- Whether a text is a letter or an underscore, and then more of them or digits. -/
def isWord : List Char → Bool
  | [] => false
  | c :: cs => isNameStart c && cs.all isNamePart

/-- Whether a text is one character that starts neither a numeral nor a word, or one of `>=`, `<=` and `==`. -/
def isSymbol : List Char → Bool
  | [c] => !c.isDigit && !isNameStart c
  | [c, d] => (c = '>' || c = '<' || c = '=') && d = '='
  | _ => false

/-- Digits, and possibly a point with more digits. -/
def IsNumeral (text : List Char) : Prop :=
  ∃ digits : List Char, digits ≠ [] ∧ (∀ d ∈ digits, d.isDigit = true) ∧
    (text = digits ∨ ∃ fraction : List Char, text = digits ++ '.' :: fraction ∧ fraction ≠ [] ∧
      ∀ d ∈ fraction, d.isDigit = true)

/-- Two slashes, and then anything but a line break. -/
def IsComment (text : List Char) : Prop :=
  ∃ body, text = '/' :: '/' :: body ∧ '\n' ∉ body

theorem isWord_keyword (word : Keyword) : isWord word.spelling.toList = true := by
  cases word <;> decide

theorem isSymbol_operator (op : Operator) : isSymbol op.symbol.toList = true := by
  cases op <;> decide

theorem isSymbol_mark (m : Mark) : isSymbol m.spelling.toList = true := by
  cases m <;> decide

theorem isNameStart_iff {c : Char} : isNameStart c = true ↔ c.isAlpha = true ∨ c = '_' := by
  rw [isNameStart, Bool.or_eq_true, decide_eq_true_iff]

theorem isNamePart_iff {c : Char} : isNamePart c = true ↔ c.isAlphanum = true ∨ c = '_' := by
  rw [isNamePart, Bool.or_eq_true, decide_eq_true_iff]

theorem isNamePart_of_isNameStart {c : Char} (h : isNameStart c = true) : isNamePart c = true := by
  refine isNamePart_iff.2 ((isNameStart_iff.1 h).imp_left fun halpha => ?_)
  rw [Char.isAlphanum, halpha, Bool.true_or]

/-- Digits come before all letters. -/
theorem isAlpha_of_isDigit {c : Char} (h : c.isDigit = true) : c.isAlpha = false := by
  have hle : c.val ≤ 57 := of_decide_eq_true (Bool.and_eq_true_iff.1 h).2
  refine Bool.or_eq_false_iff.2 ⟨?_, ?_⟩
  · refine decide_eq_false fun hupper => ?_
    exact absurd (UInt32.le_trans hupper.1 hle) (by decide)
  · refine Bool.and_eq_false_imp.2 fun hlower => ?_
    exact absurd (UInt32.le_trans (of_decide_eq_true hlower) hle) (by decide)

theorem isNameStart_of_isDigit {c : Char} (h : c.isDigit = true) : isNameStart c = false := by
  have hunderscore : c ≠ '_' := by
    rintro rfl
    cases h
  rw [isNameStart, isAlpha_of_isDigit h, decide_eq_false hunderscore]
  rfl

/-- Every spelling is of one of four kinds. -/
theorem kinds_of_spelledAs {token : Token} {text : List Char} (h : token.SpelledAs text) :
    isWord text = true ∨ isSymbol text = true ∨ IsNumeral text ∨ IsComment text := by
  cases h with
  | @fixed _ spelling h =>
    cases token with
    | keyword word =>
      cases h
      exact .inl (isWord_keyword word)
    | operator op =>
      cases h
      exact .inr (.inl (isSymbol_operator op))
    | mark m =>
      cases h
      exact .inr (.inl (isSymbol_mark m))
    | _ => cases h
  | name hstart hparts hword =>
    refine .inl (Bool.and_eq_true_iff.2 ⟨isNameStart_iff.2 hstart, List.all_eq_true.2 fun d hd => ?_⟩)
    exact isNamePart_iff.2 (hparts d hd)
  | whole hne hdigits => exact .inr (.inr (.inl ⟨_, hne, hdigits, .inl rfl⟩))
  | fractional hne hdigits hne' hfraction =>
    exact .inr (.inr (.inl ⟨_, hne, hdigits, .inr ⟨_, rfl, hne', hfraction⟩⟩))
  | comment hline hcore => exact .inr (.inr (.inr ⟨_, rfl, hline⟩))

/-! ## First characters -/

variable {c : Char} {cs : List Char}

/-- A symbol has one character, or it is one of three that end in `=`. -/
theorem isSymbol_cases (h : isSymbol (c :: cs) = true) :
    (cs = [] ∧ c.isDigit = false ∧ isNameStart c = false) ∨
      cs = ['='] ∧ (c = '>' ∨ c = '<' ∨ c = '=') := by
  match cs, h with
  | [], h => exact .inl (by simpa [isSymbol] using h)
  | [d], h =>
    simp only [isSymbol, Bool.and_eq_true, Bool.or_eq_true, decide_eq_true_eq, or_assoc] at h
    exact .inr ⟨congrArg (fun d => [d]) h.2, h.1⟩
  | _ :: _ :: _, h => cases h

theorem head_of_isSymbol (h : isSymbol (c :: cs) = true) : c.isDigit = false ∧ isNameStart c = false := by
  rcases isSymbol_cases h with ⟨-, hc⟩ | ⟨-, rfl | rfl | rfl⟩
  · exact hc
  all_goals decide

theorem isDigit_of_isNumeral (h : IsNumeral (c :: cs)) : c.isDigit = true := by
  obtain ⟨digits, hne, hdigits, htext⟩ := h
  obtain ⟨d, digits, rfl⟩ := List.exists_cons_of_ne_nil hne
  have hd := hdigits d List.mem_cons_self
  rcases htext with htext | ⟨fraction, htext, -⟩
  · cases htext
    exact hd
  · cases htext
    exact hd

/-- What starts with a digit is a numeral. -/
theorem isNumeral_of_isDigit {token : Token} (h : token.SpelledAs (c :: cs)) (hc : c.isDigit = true) :
    IsNumeral (c :: cs) := by
  rcases kinds_of_spelledAs h with hword | hsymbol | hnumeral | ⟨body, htext, -⟩
  · rw [isWord, isNameStart_of_isDigit hc] at hword
    cases hword
  · rw [(head_of_isSymbol hsymbol).1] at hc
    cases hc
  · exact hnumeral
  · cases htext
    cases hc

/-- What starts with a letter or an underscore is a word. -/
theorem isNamePart_of_spelledAs {token : Token} (h : token.SpelledAs (c :: cs))
    (hc : isNameStart c = true) : ∀ d ∈ c :: cs, isNamePart d = true := by
  rcases kinds_of_spelledAs h with hword | hsymbol | hnumeral | ⟨body, htext, -⟩
  · rw [isWord, Bool.and_eq_true_iff, List.all_eq_true] at hword
    exact List.forall_mem_cons.2 ⟨isNamePart_of_isNameStart hc, hword.2⟩
  · rw [(head_of_isSymbol hsymbol).2] at hc
    cases hc
  · rw [isNameStart_of_isDigit (isDigit_of_isNumeral hnumeral)] at hc
    cases hc
  · cases htext
    cases hc

/-- What starts with any other character is a symbol or a comment. -/
theorem isSymbol_or_isComment {token : Token} (h : token.SpelledAs (c :: cs)) (hdigit : ¬ c.isDigit = true)
    (hname : ¬ isNameStart c = true) : isSymbol (c :: cs) = true ∨ IsComment (c :: cs) := by
  rcases kinds_of_spelledAs h with hword | hsymbol | hnumeral | hcomment
  · exact absurd (Bool.and_eq_true_iff.1 hword).1 hname
  · exact .inl hsymbol
  · exact absurd (isDigit_of_isNumeral hnumeral) hdigit
  · exact .inr hcomment

/-! ## Numerals -/

/-- A numeral has the value that is read from it. -/
theorem spelledAs_of_numeral? {text : List Char} {value : Float} (h : Decimal.numeral? text = some value) :
    (Token.number value).SpelledAs text := by
  have htext : text = text.takeWhile Char.isDigit ++ text.dropWhile Char.isDigit :=
    List.takeWhile_append_dropWhile.symm
  have hdigits : ∀ d ∈ text.takeWhile Char.isDigit, d.isDigit = true := forall_mem_takeWhile
  rw [Decimal.numeral?] at h
  generalize text.takeWhile Char.isDigit = digits at h htext hdigits
  generalize text.dropWhile Char.isDigit = tail at h htext
  subst htext
  split at h
  · cases h
  · next hne =>
    cases h
    rw [List.append_nil]
    exact .whole hne hdigits
  · next fraction hne =>
    split at h
    · next hfraction =>
      cases h
      simp only [Bool.and_eq_true, Bool.not_eq_true', List.isEmpty_eq_false_iff, List.all_eq_true] at hfraction
      exact .fractional hne hdigits hfraction.1 hfraction.2
    · cases h
  · cases h

/-- No numeral that some input starts with goes on after the digits, the point and the digits that are split off. -/
theorem length_le_of_isNumeral {text input : List Char} (h : IsNumeral text) (hinput : text <+: input) :
    text.length ≤ (input.takeWhile Char.isDigit ++ (fraction (input.dropWhile Char.isDigit)).1).length := by
  rw [List.length_append]
  obtain ⟨digits, -, hdigits, rfl | ⟨digits', rfl, hne, hdigits'⟩⟩ := h
  · exact Nat.le_trans (length_le_takeWhile hinput hdigits) (Nat.le_add_right _ _)
  · obtain ⟨rest, rfl⟩ := hinput
    obtain ⟨d, digits', rfl⟩ := List.exists_cons_of_ne_nil hne
    obtain ⟨hd, hdigits'⟩ := List.forall_mem_cons.1 hdigits'
    have hpoint : ¬ Char.isDigit '.' = true := by decide
    rw [List.append_assoc, List.takeWhile_append_of_pos hdigits, List.dropWhile_append_of_pos hdigits,
      List.cons_append, List.takeWhile_cons_of_neg hpoint, List.dropWhile_cons_of_neg hpoint,
      List.cons_append, fraction, if_pos hd, List.takeWhile_append_of_pos hdigits']
    simp only [List.length_append, List.length_cons, List.append_nil]
    omega

end Lexer

/-! ## Lexemes -/

/-- A lexeme is a spelling of its token, and none that the input starts with is longer. -/
structure Lexeme.Fits {input : List Char} (l : Lexeme input) : Prop where
  spelled : l.token.SpelledAs l.text
  longest : ∀ token text, Token.SpelledAs token text → text <+: input → text.length ≤ l.text.length

namespace Lexer

variable {c : Char} {cs : List Char}

/-- It is enough to look at spellings with the same first character. -/
theorem longest_of_cons {n : Nat}
    (h : ∀ token text, Token.SpelledAs token (c :: text) → text <+: cs → text.length + 1 ≤ n) :
    ∀ token text, Token.SpelledAs token text → text <+: c :: cs → text.length ≤ n := by
  intro token text htext hprefix
  rcases List.prefix_cons_iff.1 hprefix with rfl | ⟨text, rfl, htail⟩
  · exact Nat.zero_le n
  · exact h token text htext htail

theorem fits_numberLexeme {l : Lexeme (c :: cs)} (hc : c.isDigit = true) (h : numberLexeme c cs = .ok l) :
    l.Fits := by
  rw [numberLexeme] at h
  split at h
  · next value hvalue =>
    cases h
    refine ⟨spelledAs_of_numeral? hvalue, longest_of_cons fun token text htext hprefix => ?_⟩
    have hle := length_le_of_isNumeral (isNumeral_of_isDigit htext hc) ((List.prefix_cons_inj c).2 hprefix)
    rwa [List.takeWhile_cons_of_pos hc, List.dropWhile_cons_of_pos hc] at hle
  · cases h

theorem spelling_of_ofSpelling? {text : String} {word : Keyword} (h : Keyword.ofSpelling? text = some word) :
    word.spelling = text := by
  have hfound := List.find?_some h
  exact beq_iff_eq.1 hfound

theorem spelling_ne_of_ofSpelling? {text : String} (h : Keyword.ofSpelling? text = none) (word : Keyword) :
    word.spelling ≠ text := by
  intro hword
  refine List.find?_eq_none.1 h word ?_ (beq_iff_eq.2 hword)
  cases word <;> decide

/-- A word is a reserved one, or it is a name. -/
theorem spelledAs_wordLexeme (hc : isNameStart c = true) :
    (wordLexeme c cs).token.SpelledAs (wordLexeme c cs).text := by
  rw [wordLexeme]
  dsimp only
  split
  · next word hword =>
    have hspelled : (Token.keyword word).SpelledAs word.spelling.toList := .fixed rfl
    rwa [spelling_of_ofSpelling? hword, String.toList_ofList] at hspelled
  · next hnone =>
    exact .name (isNameStart_iff.1 hc) (fun d hd => isNamePart_iff.1 (forall_mem_takeWhile d hd))
      (spelling_ne_of_ofSpelling? hnone)

theorem fits_wordLexeme (hc : isNameStart c = true) : (wordLexeme c cs).Fits := by
  refine ⟨spelledAs_wordLexeme hc, longest_of_cons fun token text htext hprefix => ?_⟩
  have hle := length_le_takeWhile ((List.prefix_cons_inj c).2 hprefix) (isNamePart_of_spelledAs htext hc)
  rwa [List.takeWhile_cons_of_pos (isNamePart_of_isNameStart hc)] at hle

theorem fits_commentLexeme (cs : List Char) : (commentLexeme cs).Fits := by
  refine ⟨?_, longest_of_cons fun token text htext hprefix => ?_⟩
  · refine .comment (fun hmem => ?_) (Text.trims_trim _)
    have hne := forall_mem_takeWhile (p := fun c => decide (c ≠ '\n')) _ hmem
    cases hne
  · rcases isSymbol_or_isComment htext (by decide) (by decide) with hsymbol | ⟨body, heq, hline⟩
    · rcases isSymbol_cases hsymbol with ⟨rfl, -⟩ | ⟨-, h⟩
      · exact Nat.le_add_left _ _
      · exact absurd h (by decide)
    · cases heq
      have hle := length_le_takeWhile (p := fun c => decide (c ≠ '\n')) ((List.prefix_cons_inj _).1 hprefix)
        fun d hd => decide_eq_true (by rintro rfl; exact hline hd)
      exact Nat.succ_le_succ (Nat.succ_le_succ hle)

theorem spelledAs_symbolLexeme {l : Lexeme (c :: cs)} (h : symbolLexeme? c cs = some l) :
    l.token.SpelledAs l.text := by
  have hspelling : l.token.spelling?.map String.toList = some l.text := by
    unfold symbolLexeme? at h
    split at h
    all_goals
      cases h
      try rfl
  obtain ⟨spelling, hspelling, htext⟩ := Option.map_eq_some_iff.1 hspelling
  rw [← htext]
  exact .fixed hspelling

/-- Before `=`, the longer one of two symbols is found. -/
theorem length_symbolLexeme {rest : List Char} {l : Lexeme (c :: '=' :: rest)}
    (hc : c = '>' ∨ c = '<' ∨ c = '=') (h : symbolLexeme? c ('=' :: rest) = some l) :
    l.text.length = 2 := by
  rcases hc with rfl | rfl | rfl <;> cases h <;> rfl

theorem fits_symbolLexeme {l : Lexeme (c :: cs)} (hdigit : ¬ c.isDigit = true) (hname : ¬ isNameStart c = true)
    (hcomment : ∀ rest, c = '/' → cs ≠ '/' :: rest) (h : symbolLexeme? c cs = some l) : l.Fits := by
  refine ⟨spelledAs_symbolLexeme h, longest_of_cons fun token text htext hprefix => ?_⟩
  rcases isSymbol_or_isComment htext hdigit hname with hsymbol | ⟨body, heq, -⟩
  · rcases isSymbol_cases hsymbol with ⟨rfl, -⟩ | ⟨rfl, hc⟩
    · exact List.length_pos_iff.2 l.text_ne_nil
    · obtain ⟨rest, rfl⟩ := hprefix
      exact Nat.le_of_eq (length_symbolLexeme hc h).symm
  · cases heq
    obtain ⟨rest, rfl⟩ := hprefix
    exact absurd rfl (hcomment _ rfl)

theorem fits_lexeme {l : Lexeme (c :: cs)} (h : lexeme c cs = .ok l) : l.Fits := by
  unfold lexeme at h
  split at h
  · cases h
    exact fits_commentLexeme _
  · next hcomment =>
    split at h
    · next hdigit => exact fits_numberLexeme hdigit h
    · next hdigit =>
      split at h
      · next hname =>
        cases h
        exact fits_wordLexeme hname
      · next hname =>
        split at h
        · next l' hsymbol =>
          cases h
          exact fits_symbolLexeme hdigit hname (fun rest hc hcs => hcomment rest hc hcs) hsymbol
        · cases h

/-! ## Positions -/

/-- Positions are found character by character. -/
theorem after_start (text : List Char) : Position.start.after text = Position.behind text := by
  have hreverse (chars : List Char) : chars.foldr (fun c p => Position.next p c) Position.start =
      ⟨1 + chars.count '\n', 1 + (chars.takeWhile (· ≠ '\n')).length⟩ := by
    induction chars with
    | nil => rfl
    | cons c chars ih =>
      rw [List.foldr_cons, ih, Position.next]
      by_cases hc : c = '\n'
      · subst hc
        simp [Nat.add_assoc]
      · simp [hc, Nat.add_assoc]
  rw [Position.after, List.foldl_eq_foldr_reverse, hreverse, List.count_reverse]
  rfl

theorem after_append (p : Position) (text text' : List Char) :
    p.after (text ++ text') = (p.after text).after text' :=
  List.foldl_append

/-! ## Texts -/

theorem mem_blanks (cs : List Char) : ∀ c ∈ cs.takeWhile isSpace, c ∈ [' ', '\t', '\r', '\n'] := by
  intro c hc
  have hspace := forall_mem_takeWhile c hc
  simpa [isSpace, or_assoc] using hspace

/-- Where only blanks are left, the text ends. -/
theorem tokensFrom_of_blank {p : Position} {text : List Char} (h : text.dropWhile isSpace = []) :
    tokensFrom p text = .ok [⟨p.after (text.takeWhile isSpace), .endOfInput⟩] := by
  rw [tokensFrom]
  split
  · rfl
  · next heq =>
    rw [h] at heq
    cases heq

/-- After blanks comes a lexeme, and then what follows the lexeme. -/
theorem tokensFrom_of_next {p : Position} {text : List Char} {c : Char} {cs : List Char}
    (hnext : text.dropWhile isSpace = c :: cs) :
    tokensFrom p text = do
      let l ← lexeme c cs
      let more ← tokensFrom ((p.after (text.takeWhile isSpace)).after l.text) l.rest
      return ⟨p.after (text.takeWhile isSpace), l.token⟩ :: more := by
  rw [tokensFrom]
  split
  · next heq =>
    rw [hnext] at heq
    cases heq
  · next heq =>
    rw [hnext] at heq
    cases heq
    rfl

/-- A lexeme that follows blanks is the next token. -/
theorem tokensFrom_of_lexeme {p : Position} {text : List Char} {c : Char} {cs : List Char}
    {l : Lexeme (c :: cs)} {more : List Located} (hnext : text.dropWhile isSpace = c :: cs)
    (hl : lexeme c cs = .ok l)
    (hmore : tokensFrom ((p.after (text.takeWhile isSpace)).after l.text) l.rest = .ok more) :
    tokensFrom p text = .ok (⟨p.after (text.takeWhile isSpace), l.token⟩ :: more) := by
  rw [tokensFrom_of_next hnext, hl]
  show (tokensFrom _ l.rest >>= _) = _
  rw [hmore]
  rfl

theorem exists_of_bind_eq_ok {α β : Type} {result : Except LexFault α} {f : α → Except LexFault β} {b : β}
    (h : (result >>= f) = .ok b) : ∃ a, result = .ok a ∧ f a = .ok b := by
  cases result with
  | error fault => cases h
  | ok a => exact ⟨a, rfl, h⟩

/-- A lexeme that follows blanks is cut off. -/
theorem cuts_lexeme {before blanks input : List Char} {l : Lexeme input} {more : List Located}
    (hblanks : ∀ c ∈ blanks, c ∈ [' ', '\t', '\r', '\n']) (hl : l.Fits)
    (hmore : Cuts (before ++ (blanks ++ l.text)) l.rest more) :
    Cuts before (blanks ++ input) (⟨.behind (before ++ blanks), l.token⟩ :: more) := by
  obtain ⟨token, text, rest, rfl, hne⟩ := l
  exact .next hblanks hl.spelled hl.longest hmore

/-- Text behind another one is cut as it should be. -/
theorem cuts_of_tokensFrom {before text : List Char} {tokens : List Located}
    (h : tokensFrom (Position.start.after before) text = .ok tokens) : Cuts before text tokens := by
  have htext : text.takeWhile isSpace ++ text.dropWhile isSpace = text := List.takeWhile_append_dropWhile
  rw [tokensFrom] at h
  simp only [← after_append] at h
  split at h
  · next hend =>
    rw [hend, List.append_nil] at htext
    have hblanks := mem_blanks text
    rw [htext] at h hblanks
    cases h
    rw [after_start]
    exact .stop hblanks
  · next c cs hnext =>
    obtain ⟨l, hl, h⟩ := exists_of_bind_eq_ok h
    obtain ⟨more, hmore, h⟩ := exists_of_bind_eq_ok h
    cases h
    have hlt : l.rest.length < text.length := by
      refine Nat.lt_of_lt_of_le (Lexeme.length_rest_lt l) ?_
      rw [← hnext]
      exact length_dropWhile_le isSpace text
    rw [List.append_assoc] at hmore
    rw [hnext] at htext
    have hcuts := cuts_lexeme (mem_blanks text) (fits_lexeme hl) (cuts_of_tokensFrom hmore)
    rwa [← after_start, htext] at hcuts
termination_by text.length
decreasing_by exact hlt

end Lexer

/-- **Nothing is lost when source text is cut into tokens**, and each token has the position where its spelling
starts. -/
theorem Token.cuts_of_ofSource {source : String} {tokens : List Located}
    (h : Token.ofSource source = .ok tokens) : Lexer.Cuts [] source.toList tokens :=
  Lexer.cuts_of_tokensFrom h

/-- The tokens of `12.5>=x1// ok `, and of `=` on the next line. -/
def Token.dense : List Located :=
  [⟨⟨1, 1⟩, .number 12.5⟩, ⟨⟨1, 5⟩, .operator .ge⟩, ⟨⟨1, 7⟩, .identifier "x1"⟩, ⟨⟨1, 9⟩, .comment "ok"⟩,
    ⟨⟨2, 1⟩, .mark .assign⟩, ⟨⟨2, 2⟩, .endOfInput⟩]

theorem Token.cuts_dense :
    Token.ofSource "12.5>=x1// ok \n=" = .ok dense ∧ Lexer.Cuts [] "12.5>=x1// ok \n=".toList dense := by
  have h : Lexer.tokensFrom Position.start "12.5>=x1// ok \n=".toList = .ok _ :=
    Lexer.tokensFrom_of_lexeme rfl rfl <| Lexer.tokensFrom_of_lexeme rfl rfl <|
      Lexer.tokensFrom_of_lexeme rfl rfl <| Lexer.tokensFrom_of_lexeme rfl rfl <|
        Lexer.tokensFrom_of_lexeme rfl rfl <| Lexer.tokensFrom_of_blank rfl
  exact ⟨h, Token.cuts_of_ofSource h⟩

end StackScript
