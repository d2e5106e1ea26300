import FunLang.Proofs.Token.Gaps

set_option autoImplicit false

/-!
# The bytes of a token

The kind of a token is determined by its bytes (`kindOf`): they are a symbol, a string in quotes, a word
or a number, or else no token at all. Where the bytes of several tokens start at one place the longest
ones count. Where those of none do, there is something illegal: a string or a comment that is not closed,
or a byte that stands for itself. `Covers` says this of the bytes `span` with `rest` after them.

Some token covers the beginning of every text that does not start with a gap (`exists_covers`), and
that is the token that `lexeme` reads (`lexeme_of_classified`, `lexeme_unclosed`, `lexeme_stray`).
-/

namespace FunLang.Lexer

/-! ## Kinds -/

/-- All symbols with their kinds. -/
def symbolTable : List (List UInt8 × TokenKind) :=
  (("(", .lparen) :: ("\\", .lambda) :: symbols).map fun p => (Text.encode p.1, p.2)

/-- A string with its quotes. -/
def isQuoted : List UInt8 → Bool
  | [] => false
  | b :: bs => b == 0x22 && bs.dropWhile isStringPart == [0x22]

/-- A letter or an underscore, and then bytes that continue a word. -/
def isWordSpan : List UInt8 → Bool
  | [] => false
  | b :: bs => isLetter b && bs.all isWordPart

/-- A row of at least one digit. -/
def isNumber : List UInt8 → Bool
  | [] => false
  | b :: bs => isDigit b && bs.all isDigit

/-- The kind of the token with the given bytes; `illegal` if they are no token. -/
def kindOf (span : List UInt8) : TokenKind :=
  match symbolTable.lookup span with
  | some k => k
  | none =>
    if isQuoted span then .stringLit
    else if isWordSpan span then .ofWord (Text.decode span)
    else if isNumber span then .intLit
    else .illegal

/-- The bytes of a token. -/
def IsLegal (span : List UInt8) : Prop := kindOf span ≠ .illegal

instance (span : List UInt8) : Decidable (IsLegal span) := inferInstanceAs (Decidable (_ ≠ _))

theorem symbolTable_eq : symbolTable =
    [([0x28], .lparen), ([0x5C], .lambda), ([0x3D], .assign), ([0x3C], .lt), ([0x3E], .gt),
      ([0x3C, 0x3D], .leq), ([0x3E, 0x3D], .geq), ([0x2D, 0x3E], .arrow), ([0x2D], .minus),
      ([0x2B], .plus), ([0x2A], .star), ([0x29], .rparen), ([0x7C], .bar), ([0x3A], .colon),
      ([0x3B], .semicolon)] := rfl

/-- No symbol starts with a quote, a letter or a digit. -/
theorem lookup_symbolTable {b : UInt8} (hb : b = 0x22 ∨ isWordPart b = true) (bs : List UInt8) :
    symbolTable.lookup (b :: bs) = none := by
  have htable : ∀ p ∈ symbolTable, p.1.head?.all (fun c => c != 0x22 && !isWordPart c) = true := by
    decide
  refine List.lookup_eq_none_iff.mpr fun p hp => ?_
  rw [bne_iff_ne]
  intro heq
  have hfirst := htable p hp
  rw [← heq] at hfirst
  rcases hb with rfl | hb
  · simp at hfirst
  · simp [hb] at hfirst

theorem kindOf_quoted {content : List UInt8} (h : ∀ b ∈ content, isStringPart b = true) :
    kindOf (0x22 :: (content ++ [0x22])) = .stringLit := by
  have hquoted : isQuoted (0x22 :: (content ++ [0x22])) = true := by
    rw [isQuoted, List.dropWhile_append_of_pos h]
    rfl
  rw [kindOf, lookup_symbolTable (Or.inl rfl)]
  simp only [hquoted, if_true]

theorem not_isQuoted {b : UInt8} (hb : b ≠ 0x22) (bs : List UInt8) : isQuoted (b :: bs) = false := by
  simp [isQuoted, hb]

theorem ne_quote_of_isWordPart {b : UInt8} (hb : isWordPart b = true) : b ≠ 0x22 := by
  rintro rfl
  simp [isWordPart, isLetter, isDigit, Text.byteIn] at hb

theorem kindOf_word {b : UInt8} {bs : List UInt8} (hb : isLetter b = true)
    (hbs : ∀ c ∈ bs, isWordPart c = true) : kindOf (b :: bs) = .ofWord (Text.decode (b :: bs)) := by
  have hpart : isWordPart b = true := by simp [isWordPart, hb]
  have hword : isWordSpan (b :: bs) = true := by
    rw [isWordSpan, hb, List.all_eq_true.mpr hbs]
    rfl
  rw [kindOf, lookup_symbolTable (Or.inr hpart)]
  simp only [not_isQuoted (ne_quote_of_isWordPart hpart), hword, if_true, Bool.false_eq_true, if_false]

theorem kindOf_number {b : UInt8} {bs : List UInt8} (hb : isDigit b = true)
    (hbs : ∀ c ∈ bs, isDigit c = true) : kindOf (b :: bs) = .intLit := by
  have hpart : isWordPart b = true := by simp [isWordPart, hb]
  have hnumber : isNumber (b :: bs) = true := by
    rw [isNumber, hb, List.all_eq_true.mpr hbs]
    rfl
  have hword : isWordSpan (b :: bs) = false := by
    rw [isWordSpan, isLetter_of_isDigit hb]
    rfl
  rw [kindOf, lookup_symbolTable (Or.inr hpart)]
  simp only [not_isQuoted (ne_quote_of_isWordPart hpart), hword, hnumber, if_true, Bool.false_eq_true,
    if_false]

/-- What the bytes of a token can be. -/
inductive Classified (b : UInt8) (bs : List UInt8) : TokenKind → Prop where
  | symbol {k : TokenKind} (h : (b :: bs, k) ∈ symbolTable) : Classified b bs k
  | string {content : List UInt8} (hb : b = 0x22) (hbs : bs = content ++ [0x22])
      (h : ∀ c ∈ content, isStringPart c = true) : Classified b bs .stringLit
  | word (hb : isLetter b = true) (hbs : ∀ c ∈ bs, isWordPart c = true) :
      Classified b bs (.ofWord (Text.decode (b :: bs)))
  | number (hb : isDigit b = true) (hbs : ∀ c ∈ bs, isDigit c = true) : Classified b bs .intLit

theorem IsLegal.classified {b : UInt8} {bs : List UInt8} (h : IsLegal (b :: bs)) :
    Classified b bs (kindOf (b :: bs)) := by
  unfold IsLegal kindOf at *
  cases hlookup : symbolTable.lookup (b :: bs) with
  | some k =>
      obtain ⟨l₁, l₂, htable, -⟩ := List.lookup_eq_some_iff.mp hlookup
      exact .symbol (by rw [htable]; simp)
  | none =>
      simp only [hlookup] at h ⊢
      by_cases hquoted : isQuoted (b :: bs) = true
      · simp only [hquoted, if_true]
        simp only [isQuoted, Bool.and_eq_true, beq_iff_eq] at hquoted
        refine .string hquoted.1 ?_ (List.all_eq_true.mp (List.all_takeWhile (l := bs)))
        rw [← hquoted.2, List.takeWhile_append_dropWhile]
      · by_cases hword : isWordSpan (b :: bs) = true
        · simp only [hquoted, hword, if_true, if_false, Bool.false_eq_true]
          simp only [isWordSpan, Bool.and_eq_true, List.all_eq_true] at hword
          exact .word hword.1 hword.2
        · by_cases hnumber : isNumber (b :: bs) = true
          · simp only [hquoted, hword, hnumber, if_true, if_false, Bool.false_eq_true]
            simp only [isNumber, Bool.and_eq_true, List.all_eq_true] at hnumber
            exact .number hnumber.1 hnumber.2
          · simp [hquoted, hword, hnumber] at h

theorem IsLegal.ne_nil {span : List UInt8} (h : IsLegal span) : span ≠ [] := by
  rintro rfl
  exact h rfl

theorem Classified.startsLexeme {b : UInt8} {bs : List UInt8} {k : TokenKind} (h : Classified b bs k) :
    startsLexeme b = true := by
  cases h with
  | symbol h =>
      have htable : ∀ p ∈ symbolTable, p.1.head?.all Lexer.startsLexeme = true := by decide
      exact htable _ h
  | string hb _ _ =>
      subst hb
      rfl
  | word hb _ => exact startsLexeme_of_isWordPart (by simp [isWordPart, hb])
  | number hb _ => exact startsLexeme_of_isWordPart (by simp [isWordPart, hb])

theorem Classified.ne_eof {b : UInt8} {bs : List UInt8} {k : TokenKind} (h : Classified b bs k) :
    k ≠ .eof := by
  cases h with
  | symbol h =>
      have htable : ∀ p ∈ symbolTable, p.2 ≠ .eof := by decide
      exact htable _ h
  | string _ _ _ => simp
  | word _ _ => exact TokenKind.ofWord_ne (by decide) (by decide) _
  | number _ _ => simp

/-- No token goes over a line end. -/
theorem Classified.not_mem {b : UInt8} {bs : List UInt8} {k : TokenKind} (h : Classified b bs k) :
    0x0A ∉ b :: bs := by
  intro hline
  cases h with
  | symbol h =>
      have htable : ∀ p ∈ symbolTable, (0x0A : UInt8) ∉ p.1 := by decide
      exact htable _ h hline
  | string hb hbs h =>
      subst hb hbs
      simp only [List.mem_cons, List.mem_append, List.not_mem_nil, or_false] at hline
      rcases hline with hline | hline | hline
      · simp at hline
      · exact absurd (h _ hline) (by decide)
      · simp at hline
  | word hb hbs =>
      rcases List.mem_cons.mp hline with rfl | hline
      · exact absurd hb (by decide)
      · exact absurd (hbs _ hline) (by decide)
  | number hb hbs =>
      rcases List.mem_cons.mp hline with rfl | hline
      · exact absurd hb (by decide)
      · exact absurd (hbs _ hline) (by decide)

theorem opensGap_of_startsLexeme {b : UInt8} (hb : startsLexeme b = true) (bs : List UInt8) :
    opensGap (b :: bs) = false := by
  simp only [startsLexeme, Bool.and_eq_true, bne_iff_ne, Bool.not_eq_true', ne_eq] at hb
  obtain ⟨⟨⟨-, hline⟩, hblank⟩, hslash⟩ := hb
  simp [opensGap, isGap, hline, hblank, hslash]

/-! ## Spans -/

/-- The token of the given kind and literal stands at the bytes `span`, behind which `rest` comes. -/
inductive Covers (span rest : List UInt8) : TokenKind → List UInt8 → Prop where
  | token (hlegal : IsLegal span)
      (hlongest : ∀ more, more <+: rest → more ≠ [] → ¬ IsLegal (span ++ more)) :
      Covers span rest (kindOf span) span
  /-- A string stops at the end of its line, which it takes with it, or at the end of the text. -/
  | unclosedString {content stop : List UInt8} (hspan : span = 0x22 :: (content ++ stop))
      (hcontent : ∀ b ∈ content, isStringPart b = true) (hstop : stop = [0x0A] ∨ stop = [] ∧ rest = []) :
      Covers span rest .illegal (Text.encode "unterminated string")
  | unclosedComment (h : IsUnclosedComment span) (hrest : rest = []) :
      Covers span rest .illegal (Text.encode "unterminated comment")
  | strayByte {b : UInt8} (hspan : span = [b]) (hquote : b ≠ 0x22) (hillegal : ¬ IsLegal [b])
      (hgap : opensGap (b :: rest) = false) :
      Covers span rest .illegal (String.utf8EncodeChar (Char.ofNat b.toNat))

/-- Of the ways to go on with a legal text there is a longest one. -/
theorem exists_longest {span : List UInt8} (h : IsLegal span) (rest : List UInt8) :
    ∃ more rest', rest = more ++ rest' ∧ IsLegal (span ++ more) ∧
      ∀ more', more' <+: rest' → more' ≠ [] → ¬ IsLegal (span ++ more ++ more') := by
  induction hn : rest.length using Nat.strong_induction_on generalizing span rest with
  | _ n ih =>
      by_cases hmore : ∃ more, more <+: rest ∧ more ≠ [] ∧ IsLegal (span ++ more)
      · obtain ⟨more, ⟨rest', rfl⟩, hne, hlegal⟩ := hmore
        have hlt : rest'.length < n := by
          have hpos := List.length_pos_iff.mpr hne
          rw [List.length_append] at hn
          omega
        obtain ⟨more', rest'', rfl, hlegal', hlongest⟩ := ih _ hlt hlegal rest' rfl
        refine ⟨more ++ more', rest'', by simp, by simpa using hlegal', ?_⟩
        simpa using hlongest
      · refine ⟨[], rest, rfl, by simpa using h, fun more hprefix hne hlegal => ?_⟩
        rw [List.append_nil] at hlegal
        exact hmore ⟨more, hprefix, hne, hlegal⟩

/-- A text that starts with a quote has a string there, closed or not. -/
theorem legal_or_unclosed {bs : List UInt8} (hnul : 0 ∉ bs) :
    (∃ content rest, bs = content ++ rest ∧ IsLegal (0x22 :: content)) ∨
      ∃ content stop rest, bs = content ++ stop ++ rest ∧ (∀ b ∈ content, isStringPart b = true) ∧
        (stop = [0x0A] ∨ stop = [] ∧ rest = []) := by
  have hcontent : ∀ b ∈ bs.takeWhile isStringPart, isStringPart b = true :=
    List.all_eq_true.mp List.all_takeWhile
  have hsplit := List.takeWhile_append_dropWhile (p := isStringPart) (l := bs)
  cases hd : bs.dropWhile isStringPart with
  | nil =>
      rw [hd] at hsplit
      exact Or.inr ⟨_, [], [], by simpa using hsplit.symm, hcontent, Or.inr ⟨rfl, rfl⟩⟩
  | cons c rest =>
      rw [hd] at hsplit
      have hstop : isStringPart c = false := by
        have hhead := List.head?_dropWhile_not isStringPart bs
        rw [hd] at hhead
        simpa using hhead
      have hne : c ≠ 0 := by
        rintro rfl
        exact hnul (by rw [← hsplit]; simp)
      by_cases hquote : c = 0x22
      · subst hquote
        refine Or.inl ⟨bs.takeWhile isStringPart ++ [0x22], rest, by simpa using hsplit.symm, ?_⟩
        rw [IsLegal, kindOf_quoted hcontent]
        simp
      · obtain rfl : c = 0x0A := by simpa [isStringPart, hne, hquote] using hstop
        exact Or.inr ⟨_, [0x0A], rest, by simpa using hsplit.symm, hcontent, Or.inl rfl⟩

/-- There is a token at the start of every text that neither is empty nor starts with a gap. -/
theorem exists_covers {bs : List UInt8} (hne : bs ≠ []) (hnul : 0 ∉ bs) (hgap : opensGap bs = false) :
    ∃ span rest k literal, bs = span ++ rest ∧ Covers span rest k literal := by
  obtain ⟨b, cs, rfl⟩ := List.exists_cons_of_ne_nil hne
  -- a legal beginning of the text can be made as long as possible
  have hlegal : ∀ more rest, cs = more ++ rest → IsLegal (b :: more) →
      ∃ span rest k literal, b :: cs = span ++ rest ∧ Covers span rest k literal := by
    rintro more rest rfl h
    obtain ⟨more', rest', rfl, h', hlongest⟩ := exists_longest h rest
    exact ⟨_, rest', _, _, by simp, .token h' hlongest⟩
  by_cases hquote : b = 0x22
  · subst hquote
    rcases legal_or_unclosed (List.ne_and_not_mem_of_not_mem_cons hnul).2 with
      ⟨content, rest, hcs, hstring⟩ | ⟨content, stop, rest, rfl, hcontent, hstop⟩
    · exact hlegal content rest hcs hstring
    · exact ⟨_, rest, _, _, by simp, .unclosedString rfl hcontent hstop⟩
  · by_cases hbyte : IsLegal [b]
    · exact hlegal [] cs rfl hbyte
    · exact ⟨[b], cs, _, _, rfl, .strayByte rfl hquote hbyte hgap⟩

/-! ## Reading a token -/

/-- A byte that would make a longer token does not follow. -/
theorem head?_ne_of_longest {span rest : List UInt8}
    (h : ∀ more, more <+: rest → more ≠ [] → ¬ IsLegal (span ++ more)) {c : UInt8}
    (hc : IsLegal (span ++ [c])) : rest.head? ≠ some c := by
  intro hhead
  obtain ⟨cs, rfl⟩ := List.head?_eq_some_iff.mp hhead
  exact h [c] (List.prefix_append [c] cs) (by simp) hc

/-- A run of bytes is taken as a whole if no byte after it belongs to it. -/
theorem takeWhile_append_of_head {p : UInt8 → Bool} {bs rest : List UInt8} (hbs : ∀ b ∈ bs, p b = true)
    (hrest : ∀ c, p c = true → rest.head? ≠ some c) :
    (bs ++ rest).takeWhile p = bs ∧ (bs ++ rest).dropWhile p = rest := by
  rw [List.takeWhile_append_of_pos hbs, List.dropWhile_append_of_pos hbs]
  cases rest with
  | nil => simp
  | cons c rest =>
      have hc : p c = false := by
        by_contra h
        exact hrest c (by simpa using h) rfl
      simp [hc]

theorem symbol?_of_mem {b : UInt8} {bs rest : List UInt8} {k : TokenKind}
    (h : (b :: bs, k) ∈ symbolTable)
    (hlongest : ∀ more, more <+: rest → more ≠ [] → ¬ IsLegal (b :: bs ++ more)) :
    symbol? b (bs ++ rest) = some (k, bs.length + 1) := by
  have hnext := fun c => head?_ne_of_longest (c := c) hlongest
  simp only [symbolTable_eq, List.mem_cons, Prod.mk.injEq, List.cons.injEq, List.not_mem_nil,
    or_false] at h
  rcases h with h | h | h | h | h | h | h | h | h | h | h | h | h | h | h <;>
    obtain ⟨⟨rfl, rfl⟩, rfl⟩ := h
  · rfl
  · rfl
  · rfl
  · -- a longer symbol starts with this one, but its second byte does not follow
    simp [symbol?, hnext 0x3D (by decide)]
  · simp [symbol?, hnext 0x3D (by decide)]
  · rfl
  · rfl
  · rfl
  · simp [symbol?, hnext 0x3E (by decide)]
  · rfl
  · rfl
  · rfl
  · rfl
  · rfl
  · rfl

theorem lexeme_quoted {content : List UInt8} (h : ∀ b ∈ content, isStringPart b = true)
    (rest : List UInt8) : lexeme 0x22 (content ++ [0x22] ++ rest) =
      ⟨.stringLit, 0x22 :: (content ++ [0x22]), content.length + 2, rest⟩ := by
  have hquote : ∀ c, isStringPart c = true → ([0x22] ++ rest).head? ≠ some c := by
    rintro c hc ⟨⟩
    simp [isStringPart] at hc
  obtain ⟨htake, hdrop⟩ := takeWhile_append_of_head h hquote
  rw [lexeme, show symbol? 0x22 (content ++ [0x22] ++ rest) = none from rfl, List.append_assoc]
  simp only [if_true, stringLexeme, htake, hdrop]
  rfl

theorem lexeme_of_classified {b : UInt8} {bs rest : List UInt8} {k : TokenKind}
    (h : Classified b bs k)
    (hlongest : ∀ more, more <+: rest → more ≠ [] → ¬ IsLegal (b :: bs ++ more)) :
    lexeme b (bs ++ rest) = ⟨k, b :: bs, bs.length + 1, rest⟩ := by
  have hnext := fun c => head?_ne_of_longest (c := c) hlongest
  cases h with
  | symbol h =>
      rw [lexeme, symbol?_of_mem h hlongest]
      simp
  | @string content hb hbs h =>
      subst hb hbs
      rw [lexeme_quoted h]
      simp
  | word hb hbs =>
      have hpart : isWordPart b = true := by simp [isWordPart, hb]
      have hstop : ∀ c, isWordPart c = true → rest.head? ≠ some c := by
        intro c hc
        have hlonger : ∀ d ∈ bs ++ [c], isWordPart d = true := by
          simpa [or_imp, forall_and, hc] using hbs
        refine hnext c ?_
        rw [IsLegal, List.cons_append, kindOf_word hb hlonger]
        exact TokenKind.ofWord_ne (by decide) (by decide) _
      obtain ⟨htake, hdrop⟩ := takeWhile_append_of_head hbs hstop
      simp only [lexeme, symbol?_eq_none hpart, ne_quote_of_isWordPart hpart, hb, if_true, if_false, runLexeme,
        htake, hdrop, List.length_cons]
  | number hb hbs =>
      have hpart : isWordPart b = true := by simp [isWordPart, hb]
      have hstop : ∀ c, isDigit c = true → rest.head? ≠ some c := by
        intro c hc
        have hlonger : ∀ d ∈ bs ++ [c], isDigit d = true := by
          simpa [or_imp, forall_and, hc] using hbs
        refine hnext c ?_
        rw [IsLegal, List.cons_append, kindOf_number hb hlonger]
        simp
      obtain ⟨htake, hdrop⟩ := takeWhile_append_of_head hbs hstop
      simp only [lexeme, symbol?_eq_none hpart, ne_quote_of_isWordPart hpart, isLetter_of_isDigit hb, hb, if_true,
        if_false, runLexeme, htake, hdrop, List.length_cons, Bool.false_eq_true]

theorem lexeme_unclosed {content stop rest : List UInt8} (hcontent : ∀ b ∈ content, isStringPart b = true)
    (hstop : stop = [0x0A] ∨ stop = [] ∧ rest = []) :
    lexeme 0x22 (content ++ stop ++ rest) =
      ⟨.illegal, Text.encode "unterminated string", content.length + 2, rest⟩ := by
  have hhead : ∀ c, isStringPart c = true → (stop ++ rest).head? ≠ some c := by
    intro c hc
    rcases hstop with rfl | ⟨rfl, rfl⟩
    · rintro ⟨⟩
      simp [isStringPart] at hc
    · simp
  obtain ⟨htake, hdrop⟩ := takeWhile_append_of_head hcontent hhead
  rw [lexeme, show symbol? 0x22 (content ++ stop ++ rest) = none from rfl, List.append_assoc]
  simp only [if_true, stringLexeme, htake, hdrop]
  rcases hstop with rfl | ⟨rfl, rfl⟩
  · rfl
  · rfl

theorem lexeme_stray {b : UInt8} (hquote : b ≠ 0x22) (hillegal : ¬ IsLegal [b]) (rest : List UInt8) :
    lexeme b rest = ⟨.illegal, String.utf8EncodeChar (Char.ofNat b.toNat), 1, rest⟩ := by
  have hne : ∀ c, IsLegal [c] → (b = c) = False := by
    intro c hc
    rw [eq_iff_iff, iff_false]
    rintro rfl
    exact hillegal hc
  have hsymbol : symbol? b rest = none := by simp (disch := decide) only [symbol?, hne, if_false]
  have hletter : isLetter b = false := by
    by_contra h
    refine hillegal ?_
    rw [IsLegal, kindOf_word (by simpa using h) (by simp)]
    exact TokenKind.ofWord_ne (by decide) (by decide) _
  have hdigit : isDigit b = false := by
    by_contra h
    refine hillegal ?_
    rw [IsLegal, kindOf_number (by simpa using h) (by simp)]
    simp
  simp only [lexeme, hsymbol, hquote, hletter, hdigit, if_false, Bool.false_eq_true]

end FunLang.Lexer
