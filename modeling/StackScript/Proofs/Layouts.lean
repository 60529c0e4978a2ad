import StackScript.Proofs.LexicalFaults

/-!
# Tokens do not depend on the layout

Tokens that are written out with blanks between them are found again, however many blanks there are and of whichever
kind, as long as a line break follows each comment (`Token.ofSource_of_layout`).

A text is cut into tokens in one way only.  A spelling determines its token (`Token.SpelledAs.eq_ofSpelling`), and the
longest spelling is found wherever it stands, so that a text that can be cut as `Lexer.Cuts` says is cut so
(`Lexer.Cuts.tokensFrom_eq`).  It remains to see that a spelling in front of a blank is the longest one there
(`Lexer.longest_of_blank`): no spelling goes on after a blank, comments apart.
-/

namespace StackScript

/-! ## One token for each spelling -/

/-- A text has only one core without blank ends. -/
theorem Text.Trims.eq_trim {text core : List Char} (h : Trims text core) : core = trim text := by
  obtain ⟨⟨front, back, rfl, hfront, hback⟩, hfirst, hlast⟩ := h
  have hback' : ∀ c ∈ back.reverse, isBlank c = true := fun c hc => hback c (List.mem_reverse.1 hc)
  have hlast' : ∀ c, core.reverse.head? = some c → isBlank c = false := by
    intro c hc
    rw [List.head?_reverse] at hc
    exact hlast c hc
  rw [trim, List.append_assoc, List.dropWhile_append_of_pos hfront]
  cases core with
  | nil =>
    rw [List.nil_append, List.dropWhile_eq_nil_iff.2 hback]
    rfl
  | cons c core =>
    have hblank : ¬ isBlank c = true := Bool.eq_false_iff.1 (hfirst c rfl)
    rw [List.cons_append, List.dropWhile_cons_of_neg hblank, ← List.cons_append, List.reverse_append,
      Lexer.dropWhile_append_of_head hback' hlast', List.reverse_reverse]

/-- The token that a spelling stands for. -/
def Token.ofSpelling (text : List Char) : Token :=
  match Decimal.numeral? text with
  | some value => .number value
  | none =>
    match text with
    | '/' :: '/' :: body => .comment (String.ofList (Text.trim body))
    | _ =>
      let word := String.ofList text
      (fixed.find? fun token => token.spelling? == some word).getD (.identifier word)

namespace Lexer

variable {c : Char} {cs : List Char}

theorem numeral?_of_isDigit_eq_false (h : c.isDigit = false) (cs : List Char) : Decimal.numeral? (c :: cs) = none := by
  rw [Decimal.numeral?, List.takeWhile_cons_of_neg (Bool.eq_false_iff.1 h)]

/-- No fixed token is spelled like a name. -/
theorem find?_fixed_of_name (hstart : isNameStart c = true)
    (hword : ∀ word : Keyword, word.spelling ≠ String.ofList (c :: cs)) :
    (Token.fixed.find? fun token => token.spelling? == some (String.ofList (c :: cs))) = none := by
  have hsymbol {spelling : String} (hs : isSymbol spelling.toList = true) : spelling ≠ String.ofList (c :: cs) := by
    rintro rfl
    rw [String.toList_ofList] at hs
    rw [(head_of_isSymbol hs).2] at hstart
    cases hstart
  refine List.find?_eq_none.2 fun token _ => ?_
  rw [beq_iff_eq]
  intro h
  cases token with
  | keyword word => exact hword word (Option.some.inj h)
  | operator op => exact hsymbol (isSymbol_operator op) (Option.some.inj h)
  | mark m => exact hsymbol (isSymbol_mark m) (Option.some.inj h)
  | _ => cases h

end Lexer

/-- A spelling stands for one token only. -/
theorem Token.SpelledAs.eq_ofSpelling {token : Token} {text : List Char} (h : token.SpelledAs text) :
    token = ofSpelling text := by
  cases h with
  | fixed hspelling =>
    cases token with
    | keyword word =>
      cases hspelling
      cases word <;> rfl
    | operator op =>
      cases hspelling
      cases op <;> rfl
    | mark m =>
      cases hspelling
      cases m <;> rfl
    | _ => cases hspelling
  | @name c cs hstart hparts hword =>
    have hname := Lexer.isNameStart_iff.2 hstart
    have hdigit : c.isDigit = false := by
      cases hd : c.isDigit with
      | false => rfl
      | true =>
        rw [Lexer.isNameStart_of_isDigit hd] at hname
        cases hname
    unfold ofSpelling
    rw [Lexer.numeral?_of_isDigit_eq_false hdigit]
    dsimp only
    split
    · next hslashes =>
      cases hslashes
      cases hname
    · rw [Lexer.find?_fixed_of_name hname hword]
      rfl
  | whole hne hdigits =>
    unfold ofSpelling
    rw [Lexer.numeral?_whole hne hdigits]
  | fractional hne hdigits hne' hfraction =>
    unfold ofSpelling
    rw [Lexer.numeral?_fractional hne hdigits hne' hfraction]
  | comment hline hcore =>
    rw [hcore.eq_trim]
    rfl

namespace Lexer

/-! ## One way to cut a text -/

/-- The longest spelling at the front of some input is found there, with its token. -/
theorem exists_lexeme_token {c : Char} {token : Token} {text rest : List Char} (h : token.SpelledAs (c :: text))
    (hlongest : Longest (c :: text) rest) :
    ∃ l, lexeme c (text ++ rest) = .ok l ∧ l.token = token ∧ l.text = c :: text ∧ l.rest = rest := by
  obtain ⟨l, hl, htext, hrest⟩ := exists_lexeme h hlongest
  refine ⟨l, hl, ?_, htext, hrest⟩
  rw [(fits_lexeme hl).spelled.eq_ofSpelling, htext, ← h.eq_ofSpelling]

/-- A text that can be cut is cut in that way. -/
theorem Cuts.tokensFrom_eq {before text : List Char} {tokens : List Located} (h : Cuts before text tokens) :
    tokensFrom (Position.start.after before) text = .ok tokens := by
  induction h with
  | @stop before blanks hblanks =>
    have hspaces : ∀ c ∈ blanks, isSpace c = true := AllBlank.isSpace hblanks
    rw [tokensFrom_of_blank (List.dropWhile_eq_nil_iff.2 hspaces), List.takeWhile_eq_self_iff.2 hspaces,
      ← after_append, after_start]
  | @next before blanks text rest token more hblanks hspelled hlongest hmore ih =>
    obtain ⟨c, text, rfl⟩ := List.exists_cons_of_ne_nil (ne_nil_of_spelledAs hspelled)
    obtain ⟨l, hl, htoken, htext, hrest⟩ := exists_lexeme_token hspelled hlongest
    have hhead : ∀ d, (c :: text ++ rest).head? = some d → isSpace d = false := by
      rintro d ⟨⟩
      exact isSpace_of_spelledAs hspelled
    have htake := takeWhile_append_of_head (AllBlank.isSpace hblanks) hhead
    have hdrop := dropWhile_append_of_head (AllBlank.isSpace hblanks) hhead
    have hrest' : tokensFrom (((Position.start.after before).after
        ((blanks ++ (c :: text ++ rest)).takeWhile isSpace)).after l.text) l.rest = .ok more := by
      rw [htake, htext, hrest, ← after_append, ← after_append]
      exact ih
    rw [tokensFrom_of_lexeme hdrop hl hrest', htake, htoken, ← after_append, after_start]

/-! ## Blanks end spellings -/

/-- In front of a blank, a spelling is the longest one; in front of a line break, so is a comment. -/
theorem longest_of_blank {token : Token} {text rest : List Char} (h : token.SpelledAs text)
    (hrest : ∀ c, rest.head? = some c → isSpace c = true ∧ (token.isComment = true → c = '\n')) :
    Longest text rest := by
  intro token' text' h' hprefix
  refine Nat.le_of_not_lt fun hlt => ?_
  -- a longer spelling has the blank in it
  obtain ⟨more, rfl⟩ : text <+: text' :=
    List.prefix_of_prefix_length_le (List.prefix_append text rest) hprefix (Nat.le_of_lt hlt)
  cases more with
  | nil =>
    rw [List.append_nil] at hlt
    exact absurd hlt (Nat.lt_irrefl _)
  | cons c more =>
    obtain ⟨rest', rfl⟩ := (List.prefix_append_right_inj text).1 hprefix
    obtain ⟨hspace, hline⟩ := hrest c rfl
    have hmem : c ∈ text ++ c :: more := List.mem_append_right text List.mem_cons_self
    obtain ⟨body, hbody, hbreak⟩ := isComment_text h' (isComment_of_isSpace h' hmem hspace)
    cases text with
    | nil => exact ne_nil_of_spelledAs h rfl
    | cons d text =>
      cases text with
      | nil =>
        cases hbody
        cases hspace
      | cons e text =>
        cases hbody
        have hcomment : token.isComment = true := by
          rw [h.eq_ofSpelling]
          rfl
        rw [hline hcomment] at hbreak
        exact hbreak (List.mem_append_right text List.mem_cons_self)

/-! ## Layouts -/

/-- A token and one of the ways to spell it. -/
structure Spelling where
  token : Token
  text : List Char
  spelled : token.SpelledAs text

/-- Spellings are laid out: blanks follow each of them, at least one if there are more spellings, and after a comment
the first of them is a line break.  After the last spelling there can be any blanks, or none. -/
inductive LaidOut : List Spelling → List Char → Prop where
  | nothing : LaidOut [] []
  | last (spelling : Spelling) {blanks : List Char} (hblanks : AllBlank blanks) :
      LaidOut [spelling] (spelling.text ++ blanks)
  | next (spelling : Spelling) {spellings : List Spelling} {blanks text : List Char} (hblanks : AllBlank blanks)
      (hne : blanks ≠ []) (hline : spelling.token.isComment = true → blanks.head? = some '\n')
      (hmore : LaidOut spellings text) : LaidOut (spelling :: spellings) (spelling.text ++ (blanks ++ text))

theorem AllBlank.isBlank {cs : List Char} (h : AllBlank cs) : ∀ c ∈ cs, Text.isBlank c = true := by
  intro c hc
  have hmem := h c hc
  simp only [List.mem_cons, List.not_mem_nil, or_false] at hmem
  rcases hmem with rfl | rfl | rfl | rfl <;> decide

/-- Blanks at the end of its line can be put to a comment. -/
theorem spelledAs_append {token : Token} {text line : List Char} (h : token.SpelledAs text)
    (hcomment : token.isComment = true) (hblanks : AllBlank line) (hline : '\n' ∉ line) :
    token.SpelledAs (text ++ line) := by
  cases h with
  | fixed hspelling => cases token <;> cases hspelling <;> cases hcomment
  | @comment body core hbody hcore =>
    obtain ⟨⟨front, back, rfl, hfront, hback⟩, hfirst, hlast⟩ := hcore
    refine .comment (fun hmem => (List.mem_append.1 hmem).elim hbody hline)
      ⟨⟨front, back ++ line, List.append_assoc _ _ _, hfront, fun c hc => ?_⟩, hfirst, hlast⟩
    exact (List.mem_append.1 hc).elim (hback c) (hblanks.isBlank c)
  | _ => cases hcomment

/-- After a spelling, blanks are left aside, except that a comment takes them up to the next line break. -/
theorem exists_line {token : Token} {text blanks : List Char} (h : token.SpelledAs text) (hblanks : AllBlank blanks) :
    ∃ line rest, blanks = line ++ rest ∧ token.SpelledAs (text ++ line) ∧ AllBlank rest ∧
      Longest (text ++ line) rest := by
  cases hcomment : token.isComment with
  | false =>
    refine ⟨[], blanks, rfl, by rwa [List.append_nil], hblanks, ?_⟩
    rw [List.append_nil]
    refine longest_of_blank h fun c hc => ⟨hblanks.isSpace c (List.mem_of_head? hc), fun htrue => ?_⟩
    rw [hcomment] at htrue
    cases htrue
  | true =>
    have hsplit : blanks = blanks.takeWhile (· ≠ '\n') ++ blanks.dropWhile (· ≠ '\n') :=
      List.takeWhile_append_dropWhile.symm
    have hall := hsplit ▸ hblanks
    have hline : '\n' ∉ blanks.takeWhile (· ≠ '\n') := fun hmem => by
      have hne := forall_mem_takeWhile _ hmem
      cases hne
    have hspelled := spelledAs_append h hcomment (fun c hc => hall c (List.mem_append_left _ hc)) hline
    have hrest : AllBlank (blanks.dropWhile (· ≠ '\n')) := fun c hc => hall c (List.mem_append_right _ hc)
    refine ⟨_, _, hsplit, hspelled, hrest, longest_of_blank hspelled fun c hc => ?_⟩
    refine ⟨hrest.isSpace c (List.mem_of_head? hc), fun _ => ?_⟩
    have hbreak := eq_false_of_head?_dropWhile hc
    exact of_not_not (of_decide_eq_false hbreak)

/-- A text that is laid out, with any blanks in front, is cut into the tokens of its spellings. -/
theorem LaidOut.cuts {spellings : List Spelling} {text : List Char} (h : LaidOut spellings text)
    (before : List Char) {front : List Char} (hfront : AllBlank front) :
    ∃ tokens, Cuts before (front ++ text) tokens ∧
      tokens.map Located.token = spellings.map Spelling.token ++ [.endOfInput] := by
  induction h generalizing before front with
  | nothing =>
    rw [List.append_nil]
    exact ⟨_, .stop hfront, rfl⟩
  | @last spelling blanks hblanks =>
    obtain ⟨line, rest, rfl, hspelled, hrest, hlongest⟩ := exists_line spelling.spelled hblanks
    rw [← List.append_assoc spelling.text]
    exact ⟨_, .next hfront hspelled hlongest (.stop hrest), rfl⟩
  | @next spelling spellings blanks text hblanks hne hline hmore ih =>
    obtain ⟨tokens, hcuts, htokens⟩ := ih (before ++ (front ++ spelling.text)) hblanks
    refine ⟨_, .next hfront spelling.spelled (longest_of_blank spelling.spelled fun c hc => ?_) hcuts, ?_⟩
    · obtain ⟨b, blanks, rfl⟩ := List.exists_cons_of_ne_nil hne
      cases hc
      exact ⟨hblanks.isSpace _ List.mem_cons_self, fun hcomment => Option.some.inj (hline hcomment)⟩
    · rw [List.map_cons, htokens]
      rfl

/-- Source text that writes out tokens: any blanks, and then their spellings laid out. -/
def Layout (spellings : List Spelling) (source : String) : Prop :=
  ∃ front text, source.toList = front ++ text ∧ AllBlank front ∧ LaidOut spellings text

/-- The tokens of a text that is laid out are those of its spellings, and the end. -/
theorem Layout.tokens_eq {spellings : List Spelling} {source : String} (h : Layout spellings source) :
    (Token.ofSource source).map (List.map Located.token) = .ok (spellings.map Spelling.token ++ [.endOfInput]) := by
  obtain ⟨front, text, hsource, hfront, hlaid⟩ := h
  obtain ⟨tokens, hcuts, htokens⟩ := hlaid.cuts [] hfront
  have hok : Token.ofSource source = .ok tokens := by
    rw [Token.ofSource, hsource]
    exact hcuts.tokensFrom_eq
  rw [hok, ← htokens]
  rfl

end Lexer

/-- **Tokens that are written out are found again**, whatever the blanks between them: the text has the tokens of the
spellings in order, and then the end.  So two layouts of the same spellings differ in the positions of tokens only. -/
theorem Token.ofSource_of_layout {spellings : List Lexer.Spelling} {source : String}
    (h : Lexer.Layout spellings source) :
    (Token.ofSource source).map (List.map Located.token) =
        .ok (spellings.map Lexer.Spelling.token ++ [.endOfInput]) ∧
      ∀ source', Lexer.Layout spellings source' →
        (Token.ofSource source').map (List.map Located.token) =
          (Token.ofSource source).map (List.map Located.token) :=
  ⟨h.tokens_eq, fun _ h' => h'.tokens_eq.trans h.tokens_eq.symm⟩

/-- A reserved word and a name that starts with it, two slashes that are no comment, one that is, and a numeral. -/
def Lexer.mixed : List Lexer.Spelling :=
  [⟨.keyword .elseWord, "else".toList, .fixed rfl⟩,
    ⟨.identifier "elsewhere", "elsewhere".toList,
      .name (by decide) (fun d hd => isNamePart_iff.1 (List.all_eq_true.1 rfl d hd)) fun word => by
        cases word <;> decide⟩,
    ⟨.operator .div, "/".toList, .fixed rfl⟩, ⟨.operator .div, "/".toList, .fixed rfl⟩,
    ⟨.comment "ok", "// ok\t".toList, .comment (by decide) (Text.trims_trim _)⟩,
    ⟨.number 1.5, "1.5".toList, spelledAs_of_numeral? rfl⟩]

theorem Lexer.layout_mixed : Layout mixed "else elsewhere / / // ok\t\n1.5" := by
  have hspace : AllBlank [' '] := List.forall_mem_singleton.2 (by decide)
  have hline : AllBlank ['\n'] := List.forall_mem_singleton.2 (by decide)
  refine ⟨[], _, rfl, List.forall_mem_nil _, ?_⟩
  refine .next _ hspace (by decide) (by decide) <| .next _ hspace (by decide) (by decide) <|
    .next _ hspace (by decide) (by decide) <| .next _ hspace (by decide) (by decide) <|
    .next _ hline (by decide) (by decide) <| .last _ (List.forall_mem_nil _)

theorem Token.ofSource_mixed :
    Lexer.Layout Lexer.mixed "else elsewhere / / // ok\t\n1.5" ∧
      (Token.ofSource "else elsewhere / / // ok\t\n1.5").map (List.map Located.token) =
        .ok [.keyword .elseWord, .identifier "elsewhere", .operator .div, .operator .div, .comment "ok", .number 1.5,
          .endOfInput] :=
  ⟨Lexer.layout_mixed, (Token.ofSource_of_layout Lexer.layout_mixed).1⟩

end StackScript
