import FunLang.Proofs.Token.Spelling

set_option autoImplicit false

/-!
# Texts that go on on the next line

A line end finishes every token and every gap before it but a comment that needs a closing mark. The
tokens of a text are therefore still there if the text goes on on the next line, and those of what
follows come after them (`tokenize_continued`). This is so unless the text ends within a comment, or
ends before its last byte since there is a NUL in it.
-/

namespace FunLang.Lexer

variable (more : List UInt8)

/-! ## Gaps -/

/-- What becomes of a gap in `source` if a line end and `more` come after `source`. -/
def Gap.Continues (source : List UInt8) : Gap → Gap → Prop
  | .passed ⟨[], _⟩, g => ∃ p, g = skipGap more p
  | .passed ⟨b :: bs, p⟩, g => b :: bs <:+ source ∧ g = .passed ⟨b :: (bs ++ 0x0A :: more), p⟩
  | .unclosed .., _ => True

variable {more}

theorem Gap.Continues.mono {source source' : List UInt8} (h : source <:+ source') {g g' : Gap}
    (hg : g.Continues more source g') : g.Continues more source' g' := by
  match g, hg with
  | .passed ⟨[], _⟩, hg => exact hg
  | .passed ⟨b :: bs, p⟩, hg => exact ⟨hg.1.trans h, hg.2⟩
  | .unclosed .., _ => trivial

variable (more)

mutual

theorem skipGap_continues : ∀ (bs : List UInt8) (p : Pos),
    (skipGap bs p).Continues more bs (skipGap (bs ++ 0x0A :: more) p)
  | [], p => ⟨p.nextLine, by simp [skipGap.eq_def (0x0A :: more)]⟩
  | b :: bs, p => by
      have hbs : bs <:+ b :: bs := List.suffix_cons b bs
      rw [List.cons_append, skipGap.eq_def (b :: bs), skipGap.eq_def (b :: (bs ++ 0x0A :: more))]
      by_cases hline : b = 0x0A
      · simp only [hline, if_true]
        exact (skipGap_continues bs _).mono (hline ▸ hbs)
      · by_cases hblank : isBlank b = true
        · simp only [hline, hblank, if_true, if_false]
          exact (skipGap_continues bs _).mono hbs
        · by_cases hslash : b = 0x2F
          · -- a slash starts a comment or stands for itself, which the next byte tells
            subst hslash
            match bs with
            | [] => exact ⟨List.suffix_rfl, rfl⟩
            | c :: cs =>
                have hcs : cs <:+ 0x2F :: c :: cs := (List.suffix_cons c cs).trans hbs
                by_cases hc : c = 0x2F
                · simp only [hline, hblank, if_true, if_false, List.cons_append, hc]
                  exact (skipLine_continues cs _).mono (hc ▸ hcs)
                · by_cases hstar : c = 0x2A
                  · simp only [hline, hblank, if_true, if_false, List.cons_append, hstar]
                    exact (skipBlock_continues p cs _).mono (hstar ▸ hcs)
                  · simp only [hline, hblank, if_true, if_false, List.cons_append, hc, hstar]
                    exact ⟨List.suffix_rfl, rfl⟩
          · simp only [hline, hblank, hslash, if_false, Bool.false_eq_true]
            exact ⟨List.suffix_rfl, rfl⟩

theorem skipLine_continues : ∀ (bs : List UInt8) (p : Pos),
    (skipLine bs p).Continues more bs (skipLine (bs ++ 0x0A :: more) p)
  | [], p => ⟨p.nextLine, by simp [skipLine.eq_def (0x0A :: more)]⟩
  | b :: bs, p => by
      have hbs : bs <:+ b :: bs := List.suffix_cons b bs
      rw [List.cons_append, skipLine.eq_def (b :: bs), skipLine.eq_def (b :: (bs ++ 0x0A :: more))]
      by_cases hline : b = 0x0A
      · simp only [hline, if_true]
        exact (skipGap_continues bs _).mono (hline ▸ hbs)
      · by_cases hnul : b = 0
        · simp only [hnul, if_true]
          exact ⟨hnul ▸ List.suffix_rfl, rfl⟩
        · simp only [hline, hnul, if_false]
          exact (skipLine_continues bs _).mono hbs

theorem skipBlock_continues (start : Pos) : ∀ (bs : List UInt8) (p : Pos),
    (skipBlock start bs p).Continues more bs (skipBlock start (bs ++ 0x0A :: more) p)
  | [], p => trivial
  | b :: bs, p => by
      have hbs : bs <:+ b :: bs := List.suffix_cons b bs
      rw [List.cons_append, skipBlock.eq_def start (b :: bs),
        skipBlock.eq_def start (b :: (bs ++ 0x0A :: more))]
      by_cases hnul : b = 0
      · simp only [hnul, if_true]
        trivial
      · by_cases hline : b = 0x0A
        · simp only [hline, if_true]
          exact (skipBlock_continues start bs _).mono (hline ▸ hbs)
        · by_cases hstar : b = 0x2A
          · subst hstar
            match bs with
            | [] => trivial
            | c :: cs =>
                have hcs : cs <:+ 0x2A :: c :: cs := (List.suffix_cons c cs).trans hbs
                by_cases hc : c = 0x2F
                · simp only [hnul, hline, if_true, if_false, List.cons_append, hc]
                  exact (skipGap_continues cs _).mono (hc ▸ hcs)
                · simp only [hnul, hline, if_true, if_false, List.cons_append, hc]
                  exact (skipBlock_continues start (c :: cs) _).mono hbs
          · simp only [hnul, hline, hstar, if_false]
            exact (skipBlock_continues start bs _).mono hbs

end

/-! ## Lexemes -/

theorem takeWhile_append_cons {p : UInt8 → Bool} {b : UInt8} (hb : p b = false)
    (bs cs : List UInt8) : (bs ++ b :: cs).takeWhile p = bs.takeWhile p ∧
      (bs ++ b :: cs).dropWhile p = bs.dropWhile p ++ b :: cs := by
  induction bs with
  | nil => simp [hb]
  | cons c bs ih => by_cases hc : p c = true <;> simp [hc, ih]

theorem symbol?_append (b : UInt8) (bs : List UInt8) :
    symbol? b (bs ++ 0x0A :: more) = symbol? b bs := by
  cases bs with
  | nil => rfl
  | cons c bs => rfl

/-- The token at a byte is the same if the text goes on on the next line. Only a string that is not closed
takes in the line end. -/
theorem lexeme_continues (b : UInt8) (bs : List UInt8) : ∃ rest,
    lexeme b (bs ++ 0x0A :: more) = { lexeme b bs with rest := rest } ∧
      (rest = (lexeme b bs).rest ++ 0x0A :: more ∨ (lexeme b bs).rest = [] ∧ rest = more) := by
  unfold lexeme
  rw [symbol?_append]
  cases hs : symbol? b bs with
  | some symbol =>
      have hle := (length_of_symbol? hs).2.2
      refine ⟨_, ?_, Or.inl rfl⟩
      simp only [← List.cons_append, List.take_append_of_le_length hle,
        List.drop_append_of_le_length hle]
  | none =>
      by_cases hquote : b = 0x22
      · simp only [hquote, if_true]
        obtain ⟨htake, hdrop⟩ := takeWhile_append_cons (p := isStringPart) (b := 0x0A) rfl bs more
        unfold stringLexeme
        rw [htake, hdrop]
        cases hd : bs.dropWhile isStringPart with
        | nil => exact ⟨more, rfl, Or.inr ⟨rfl, rfl⟩⟩
        | cons c rest =>
            by_cases hc : c = 0x22
            · exact ⟨rest ++ 0x0A :: more, by simp [hc], Or.inl (by simp [hc])⟩
            · exact ⟨rest ++ 0x0A :: more, by simp [hc], Or.inl (by simp [hc])⟩
      · simp only [hquote, if_false]
        -- a word and a number are runs of bytes, and no run goes on past a line end
        have hrun (kind : List UInt8 → TokenKind) {p : UInt8 → Bool} (hp : p 0x0A = false) :
            runLexeme kind p b (bs ++ 0x0A :: more)
              = { runLexeme kind p b bs with rest := (runLexeme kind p b bs).rest ++ 0x0A :: more } := by
          obtain ⟨htake, hdrop⟩ := takeWhile_append_cons hp bs more
          unfold runLexeme
          rw [htake, hdrop]
        by_cases hletter : isLetter b = true
        · simp only [hletter, if_true]
          exact ⟨_, hrun _ rfl, Or.inl rfl⟩
        · simp only [hletter, if_false, Bool.false_eq_true]
          by_cases hdigit : isDigit b = true
          · simp only [hdigit, if_true]
            exact ⟨_, hrun _ rfl, Or.inl rfl⟩
          · simp only [hdigit, if_false, Bool.false_eq_true]
            exact ⟨_, rfl, Or.inl rfl⟩

theorem lexeme_rest_suffix (b : UInt8) (bs : List UInt8) : (lexeme b bs).rest <:+ bs := by
  unfold lexeme
  cases hs : symbol? b bs with
  | some symbol =>
      obtain ⟨n, hn⟩ : ∃ n, symbol.2 = n + 1 := Nat.exists_eq_add_one.mpr (length_of_symbol? hs).1
      simp only [hn, List.drop_succ_cons]
      exact List.drop_suffix n bs
  | none =>
      dsimp only
      split_ifs
      · unfold stringLexeme
        have hsuffix := List.dropWhile_suffix isStringPart (l := bs)
        cases hd : bs.dropWhile isStringPart with
        | nil => exact List.nil_suffix
        | cons c rest =>
            rw [hd] at hsuffix
            dsimp only
            split_ifs
            · exact (List.suffix_cons c rest).trans hsuffix
            · exact (List.suffix_cons c rest).trans hsuffix
      · exact List.dropWhile_suffix _
      · exact List.dropWhile_suffix _
      · exact List.suffix_rfl

theorem lexeme_kind_ne_eof (b : UInt8) (bs : List UInt8) : (lexeme b bs).kind ≠ .eof := by
  unfold lexeme
  cases hs : symbol? b bs with
  | some symbol => exact symbol?_ne_eof hs
  | none =>
      dsimp only
      split_ifs
      · unfold stringLexeme
        dsimp only
        split
        · simp
        · split_ifs <;> simp
      · exact TokenKind.ofWord_ne (by decide) (by decide) _
      · simp [runLexeme]
      · simp

/-! ## Tokens -/

/-- The token that stands for a comment without its closing mark. -/
def isUnclosed (t : Token) : Bool := t.kind == .illegal && t.literal == Text.encode "unterminated comment"

/-- What becomes of the next token and the cursor behind it, if a line end and `more` come after
`source`. -/
inductive Continues (source : List UInt8) (p : Pos) : Token × Cursor → Prop where
  | ended {z : Token} {c : Cursor} (p' : Pos) (hz : z.kind = .eof)
      (h : next ⟨source ++ 0x0A :: more, p⟩ = next ⟨more, p'⟩) : Continues source p (z, c)
  | goesOn {t : Token} {c : Cursor} (rest : List UInt8) (ht : t.kind ≠ .eof) (hc : c.rest <:+ source)
      (hlt : c.rest.length < source.length)
      (h : next ⟨source ++ 0x0A :: more, p⟩ = (t, ⟨rest, c.pos⟩))
      (hrest : rest = c.rest ++ 0x0A :: more ∨ c.rest = [] ∧ rest = more) : Continues source p (t, c)

/-- A token other than the end is the same if the text goes on on the next line. -/
theorem next_continues {bs : List UInt8} (hnul : 0 ∉ bs) (p : Pos)
    (hcomment : isUnclosed (next ⟨bs, p⟩).1 = false) : Continues more bs p (next ⟨bs, p⟩) := by
  have hgap := skipGap_continues more bs p
  match hg : skipGap bs p with
  | .unclosed start stop => simp [next, hg, isUnclosed] at hcomment
  | .passed ⟨[], q⟩ =>
      rw [hg] at hgap
      obtain ⟨p', hmore⟩ := hgap
      have hnext : next ⟨bs, p⟩ = (.endAt q, ⟨[], q⟩) := by simp only [next, hg]
      rw [hnext]
      exact .ended p' rfl (by simp only [next, hmore])
  | .passed ⟨b :: cs, q⟩ =>
      rw [hg] at hgap
      obtain ⟨hsuffix, hmore⟩ := hgap
      have hb : b ≠ 0 := by
        rintro rfl
        exact hnul (hsuffix.subset List.mem_cons_self)
      have hnext : next ⟨bs, p⟩ = (⟨(lexeme b cs).kind, (lexeme b cs).literal, q⟩,
          ⟨(lexeme b cs).rest, q.right (lexeme b cs).width⟩) := by
        simp only [next, hg, hb, if_false]
      obtain ⟨rest, hlexeme, hrest⟩ := lexeme_continues more b cs
      rw [hnext]
      have hcs := lexeme_rest_suffix b cs
      refine .goesOn rest (lexeme_kind_ne_eof b cs) ?_ ?_ ?_ hrest
      · exact hcs.trans ((List.suffix_cons b cs).trans hsuffix)
      · show (lexeme b cs).rest.length < bs.length
        have hle := hsuffix.length_le
        have hle' := hcs.length_le
        rw [List.length_cons] at hle
        omega
      · simp only [next, hmore, hb, if_false, hlexeme]

/-- The tokens of a text come first if the text goes on on the next line. -/
theorem tokensFrom_continued : ∀ (m : Nat) (bs : List UInt8) (p : Pos), bs.length < m → 0 ∉ bs →
    (∀ t ∈ tokensFrom m ⟨bs, p⟩, isUnclosed t = false) → ∀ n, (bs ++ 0x0A :: more).length < n →
      ∃ ts z p' n', tokensFrom m ⟨bs, p⟩ = ts ++ [z] ∧ z.kind = .eof ∧ more.length < n' ∧
        tokensFrom n ⟨bs ++ 0x0A :: more, p⟩ = ts ++ tokensFrom n' ⟨more, p'⟩
  | m + 1, bs, p, hm, hnul, hclosed, n, hn => by
      obtain ⟨n, rfl⟩ : ∃ k, n = k + 1 := ⟨n - 1, by omega⟩
      simp only [List.length_append, List.length_cons] at hn
      have hfirst : isUnclosed (next ⟨bs, p⟩).1 = false := by
        refine hclosed _ ?_
        simp only [tokensFrom]
        split <;> simp
      have hcontinues := next_continues more hnul p hfirst
      rw [tokensFrom] at hclosed ⊢
      generalize next ⟨bs, p⟩ = tc at hcontinues hclosed ⊢
      cases hcontinues with
      | @ended z c p' hz h =>
          -- nothing but a gap is left, and the line end goes on with it
          refine ⟨[], z, p', n + 1, by simp [hz], hz, by omega, ?_⟩
          simp only [tokensFrom, h, List.nil_append]
      | @goesOn t c rest ht hc hlt h hrest =>
          simp only [ht, if_false] at hclosed ⊢
          have hsplit : tokensFrom (n + 1) ⟨bs ++ 0x0A :: more, p⟩ = t :: tokensFrom n ⟨rest, c.pos⟩ := by
            simp only [tokensFrom, h, ht, if_false]
          rw [hsplit]
          rcases hrest with rfl | ⟨hnil, rfl⟩
          · have hclosed' : ∀ u ∈ tokensFrom m c, isUnclosed u = false := fun u hu =>
              hclosed u (List.mem_cons_of_mem t hu)
            have hlen : (c.rest ++ 0x0A :: more).length < n := by
              simp only [List.length_append, List.length_cons]
              omega
            obtain ⟨ts, z, p', n', hts, hz, hn', heq⟩ := tokensFrom_continued m c.rest c.pos (by omega)
              (fun h => hnul (hc.subset h)) hclosed' n hlen
            exact ⟨t :: ts, z, p', n', by rw [List.cons_append, hts], hz, hn',
              by rw [List.cons_append, heq]⟩
          · -- the line end belongs to a string that is not closed, and the text ends with it
            obtain ⟨k, rfl⟩ : ∃ k, m = k + 1 := ⟨m - 1, by omega⟩
            obtain ⟨cs, q⟩ := c
            obtain rfl : cs = [] := hnil
            exact ⟨[t], .endAt q, q, n, rfl, rfl, by omega, rfl⟩

/-- The tokens of a text come first if the text goes on on the next line. -/
theorem tokenize_continued {source : List UInt8} (hnul : 0 ∉ source)
    (hclosed : ∀ t ∈ tokenize source, isUnclosed t = false) :
    ∃ ts z p n, tokenize source = ts ++ [z] ∧ z.kind = .eof ∧ more.length < n ∧
      tokenize (source ++ 0x0A :: more) = ts ++ tokensFrom n ⟨more, p⟩ :=
  tokensFrom_continued more _ source .start (by omega) hnul hclosed _ (by omega)

end FunLang.Lexer
