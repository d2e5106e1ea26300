import FunLang.Proofs.Token.Spans

set_option autoImplicit false

/-!
# Splitting a text into tokens

A text without a NUL byte is split, in order and without a rest, into gaps and the bytes of tokens
(`Splits`), and the tokens of such a split are those that `tokenize` returns (`tokenize_splits`).

The place of a token is found by counting what comes before it. This is the text itself but for strings
that are not closed, which are counted as if there were a quote where they stop (`Piece.counted`).
-/

namespace FunLang.Lexer

/-- A token, the bytes of the text at which it stands and the gap before them. -/
structure Piece where
  gap : List UInt8
  span : List UInt8
  kind : TokenKind
  literal : List UInt8
deriving DecidableEq

namespace Piece

/-- What a piece takes of the text. -/
def text (q : Piece) : List UInt8 := q.gap ++ q.span

/-- The token of the piece, at the place `p`. -/
def tokenAt (q : Piece) (p : Pos) : Token := ⟨q.kind, q.literal, p⟩

/-- The token that stands for a string without its closing quote. -/
def isUnclosedString (q : Piece) : Bool :=
  q.kind == .illegal && q.literal == Text.encode "unterminated string"

/-- What is counted of the text: where a string that is not closed stops, there is a quote in place of
the line end or behind the last byte. -/
def counted (q : Piece) : List UInt8 :=
  if q.isUnclosedString then q.gap ++ (q.span.filter (· != 0x0A) ++ [0x22]) else q.text

theorem not_isUnclosedString {q : Piece} (h : q.literal ≠ Text.encode "unterminated string") :
    q.isUnclosedString = false := by
  rw [isUnclosedString, beq_eq_false_iff_ne.mpr h, Bool.and_false]

theorem counted_eq_text {q : Piece} (h : q.isUnclosedString = false) : q.counted = q.text := by
  simp [counted, h]

end Piece

/-- The text is made up of these pieces. The last of them is the end of the text with the gap before it. -/
inductive Splits : List UInt8 → List Piece → Prop where
  | last {gap : List UInt8} (h : GapBefore [] gap) : Splits gap [⟨gap, [], .eof, []⟩]
  | cons {gap span rest literal : List UInt8} {k : TokenKind} {qs : List Piece}
      (hgap : GapBefore (span ++ rest) gap) (h : Covers span rest k literal) (hqs : Splits rest qs) :
      Splits (gap ++ (span ++ rest)) (⟨gap, span, k, literal⟩ :: qs)

/-! ## Every text can be split -/

theorem Covers.ne_nil {span rest literal : List UInt8} {k : TokenKind} (h : Covers span rest k literal) :
    span ≠ [] := by
  cases h with
  | token hlegal _ => exact hlegal.ne_nil
  | unclosedString hspan _ _ => simp [hspan]
  | unclosedComment h _ =>
      obtain ⟨body, rfl, -⟩ := h
      simp
  | strayByte hspan _ _ _ => simp [hspan]

theorem exists_splits {source : List UInt8} (hnul : 0 ∉ source) : ∃ qs, Splits source qs := by
  induction hn : source.length using Nat.strong_induction_on generalizing source with
  | _ n ih =>
      obtain ⟨gap, bs, rfl, hgap, hbs⟩ := exists_gapBefore source
      by_cases hnil : bs = []
      · subst hnil
        exact ⟨_, by simpa using Splits.last hgap⟩
      · have hcovers : ∃ span rest k literal, bs = span ++ rest ∧ Covers span rest k literal := by
          rcases hbs with hopens | hunclosed
          · exact exists_covers hnil (fun h => hnul (List.mem_append_right gap h)) hopens
          · exact ⟨bs, [], _, _, by simp, .unclosedComment hunclosed rfl⟩
        obtain ⟨span, rest, k, literal, rfl, h⟩ := hcovers
        have hlt : rest.length < n := by
          have hpos := List.length_pos_iff.mpr h.ne_nil
          simp only [List.length_append] at hn
          omega
        have hrest : 0 ∉ rest := by simp_all
        obtain ⟨qs, hqs⟩ := ih _ hlt hrest rfl
        exact ⟨_, .cons hgap h hqs⟩

theorem Splits.flatMap_text {source : List UInt8} {qs : List Piece} (h : Splits source qs) :
    qs.flatMap Piece.text = source := by
  induction h with
  | last _ => simp [Piece.text]
  | cons _ _ _ ih => simp [Piece.text, ih]

/-! ## Reading a split text -/

theorem next_of_lexeme {source : List UInt8} {p q : Pos} {b : UInt8} {bs : List UInt8}
    (hgap : skipGap source p = .passed ⟨b :: bs, q⟩) (hb : b ≠ 0) {l : Lexeme} (hl : lexeme b bs = l) :
    next ⟨source, p⟩ = (⟨l.kind, l.literal, q⟩, ⟨l.rest, q.right l.width⟩) := by
  simp only [next, hgap, hb, if_false, hl]

/-- The place behind a piece without a line end, as it is counted. -/
theorem after_counted (p : Pos) {q : Piece} {bs : List UInt8} (hq : q.counted = q.gap ++ bs)
    (hline : 0x0A ∉ bs) : p.after q.counted = (p.after q.gap).right bs.length := by
  rw [hq, Pos.after_append, Pos.after_eq_right _ hline]

theorem counted_unclosed {gap content stop : List UInt8} (hcontent : ∀ b ∈ content, isStringPart b = true)
    (hstop : stop = [0x0A] ∨ stop = []) :
    Piece.counted ⟨gap, 0x22 :: (content ++ stop), .illegal, Text.encode "unterminated string"⟩
      = gap ++ (0x22 :: (content ++ [0x22])) := by
  have hfilter : content.filter (· != 0x0A) = content := by
    refine List.filter_eq_self.mpr fun b hb => ?_
    have hpart := hcontent b hb
    simp only [isStringPart, Bool.and_eq_true] at hpart
    exact hpart.1.2
  have hstop' : stop.filter (· != 0x0A) = [] := by
    rcases hstop with rfl | rfl
    · rfl
    · rfl
  simp [Piece.counted, Piece.isUnclosedString, hfilter, hstop']

/-- The next token is that of the first piece, and it is read to the end of the piece. -/
theorem next_of_covers {gap span rest literal : List UInt8} {k : TokenKind}
    (hgap : GapBefore (span ++ rest) gap) (h : Covers span rest k literal)
    (hnul : 0 ∉ gap ++ (span ++ rest)) (p : Pos) {q : Piece} (hq : q = ⟨gap, span, k, literal⟩) :
    next ⟨gap ++ (span ++ rest), p⟩ = (q.tokenAt (p.after gap), ⟨rest, p.after q.counted⟩) := by
  rw [List.mem_append, not_or] at hnul
  have hskip := skipGap_append hgap hnul.1 p
  cases h with
  | token hlegal hlongest =>
      obtain ⟨b, bs, rfl⟩ := List.exists_cons_of_ne_nil hlegal.ne_nil
      have hclass := hlegal.classified
      have hopens := opensGap_of_startsLexeme hclass.startsLexeme (bs ++ rest)
      rw [List.cons_append] at hskip hnul ⊢
      rw [skipGap_of_opensGap hopens] at hskip
      have hb : b ≠ 0 := by
        rintro rfl
        simp at hnul
      have hclosed : q.isUnclosedString = false := by
        rw [hq, Piece.isUnclosedString, beq_eq_false_iff_ne.mpr hlegal]
        rfl
      have hcounted : q.counted = q.gap ++ (b :: bs) := by
        rw [Piece.counted_eq_text hclosed, hq]
        rfl
      rw [next_of_lexeme hskip hb (lexeme_of_classified hclass hlongest),
        after_counted p hcounted hclass.not_mem, hq]
      rfl
  | @unclosedString content stop hspan hcontent hstop =>
      subst hspan
      have hopens : opensGap (0x22 :: (content ++ stop ++ rest)) = false := rfl
      rw [List.cons_append] at hskip ⊢
      rw [skipGap_of_opensGap hopens] at hskip
      have hcounted : q.counted = q.gap ++ (0x22 :: (content ++ [0x22])) := by
        rw [hq, counted_unclosed hcontent (hstop.imp_right And.left)]
      have hline : 0x0A ∉ 0x22 :: (content ++ [0x22]) := by
        rw [← List.cons_append, List.mem_append, List.mem_cons]
        rintro ((hline | hline) | hline)
        · simp at hline
        · exact absurd (hcontent _ hline) (by decide)
        · simp at hline
      rw [next_of_lexeme hskip (by decide) (lexeme_unclosed hcontent hstop),
        after_counted p hcounted hline, hq]
      simp [Piece.tokenAt]
  | unclosedComment h hrest =>
      subst hrest
      rw [List.append_nil] at hskip hnul ⊢
      rw [skipGap_unclosed h hnul.2] at hskip
      have hclosed : q.isUnclosedString = false := by
        rw [hq]
        exact Piece.not_isUnclosedString
          (show Text.encode "unterminated comment" ≠ Text.encode "unterminated string" by decide)
      rw [Piece.counted_eq_text hclosed, Piece.text, hq, Pos.after_append]
      simp only [next, hskip]
      rfl
  | @strayByte b hspan hquote hillegal hopens =>
      subst hspan
      rw [List.singleton_append] at hskip hnul ⊢
      rw [skipGap_of_opensGap hopens] at hskip
      have hb : b ≠ 0 := by
        rintro rfl
        simp at hnul
      have hclosed : q.isUnclosedString = false := by
        -- one character has at most four bytes
        have hlength := String.length_utf8EncodeChar (Char.ofNat b.toNat)
        have hsize := Char.utf8Size_le_four (Char.ofNat b.toNat)
        rw [hq]
        refine Piece.not_isUnclosedString fun heq => ?_
        have hlong : (String.utf8EncodeChar (Char.ofNat b.toNat)).length = 19 := congrArg List.length heq
        omega
      have hcounted : q.counted = q.gap ++ [b] := by
        rw [Piece.counted_eq_text hclosed, hq]
        rfl
      have hline : 0x0A ∉ [b] := by
        simp only [opensGap, isGap, Bool.or_eq_false_iff, beq_eq_false_iff_ne] at hopens
        simpa [eq_comm] using hopens.1.2
      rw [next_of_lexeme hskip hb (lexeme_stray hquote hillegal rest),
        after_counted p hcounted hline, hq]
      rfl

/-- The tokens of pieces that come one after the other from the place `p` on. -/
def tokensOf (p : Pos) : List Piece → List Token
  | [] => []
  | q :: qs => q.tokenAt (p.after q.gap) :: tokensOf (p.after q.counted) qs

theorem Covers.ne_eof {span rest literal : List UInt8} {k : TokenKind} (h : Covers span rest k literal) :
    k ≠ .eof := by
  cases h with
  | token hlegal _ =>
      obtain ⟨b, bs, rfl⟩ := List.exists_cons_of_ne_nil hlegal.ne_nil
      exact hlegal.classified.ne_eof
  | unclosedString _ _ _ => simp
  | unclosedComment _ _ => simp
  | strayByte _ _ _ _ => simp

theorem Splits.tokensFrom_eq {source : List UInt8} {qs : List Piece} (h : Splits source qs)
    (hnul : 0 ∉ source) (p : Pos) {n : Nat} (hn : source.length < n) :
    tokensFrom n ⟨source, p⟩ = tokensOf p qs := by
  induction h generalizing p n with
  | @last gap hgap =>
      obtain ⟨n, rfl⟩ : ∃ m, n = m + 1 := ⟨n - 1, by omega⟩
      have hskip := skipGap_append hgap hnul p
      have hopens : opensGap [] = false := rfl
      rw [List.append_nil, skipGap_of_opensGap hopens] at hskip
      have hnext : next ⟨gap, p⟩ = (.endAt (p.after gap), ⟨[], p.after gap⟩) := by
        simp only [next, hskip]
      simp only [tokensFrom, hnext]
      rfl
  | @cons gap span rest literal k qs hgap hcovers _ ih =>
      obtain ⟨n, rfl⟩ : ∃ m, n = m + 1 := ⟨n - 1, by omega⟩
      have hnext := next_of_covers hgap hcovers hnul p rfl
      have hpos := List.length_pos_iff.mpr hcovers.ne_nil
      have hrest : rest.length < n := by
        simp only [List.length_append] at hn
        omega
      have hk : k ≠ .eof := hcovers.ne_eof
      have hnul' : 0 ∉ rest := by simp_all
      rw [tokensFrom, hnext]
      simp only [Piece.tokenAt, hk, if_false, tokensOf, ih hnul' _ hrest]

theorem Splits.tokenize_eq {source : List UInt8} {qs : List Piece} (h : Splits source qs)
    (hnul : 0 ∉ source) : tokenize source = tokensOf .start qs :=
  h.tokensFrom_eq hnul .start (Nat.lt_succ_self _)

/-! ## Nothing is lost -/

theorem map_tokensOf (p : Pos) (qs : List Piece) :
    (tokensOf p qs).map (fun t => (t.kind, t.literal)) = qs.map fun q => (q.kind, q.literal) := by
  induction qs generalizing p with
  | nil => rfl
  | cons q qs ih => rw [tokensOf, List.map_cons, List.map_cons, ih, Piece.tokenAt]

/-- What stands at a piece: the end of the text, or a token that covers some bytes. -/
theorem Splits.cases_of_eq {source : List UInt8} {qs : List Piece} (h : Splits source qs)
    {before after : List Piece} {q : Piece} (hq : qs = before ++ q :: after) :
    GapBefore (q.span ++ after.flatMap Piece.text) q.gap ∧
      (after = [] ∧ q.span = [] ∧ q.kind = .eof ∧ q.literal = [] ∨
        after ≠ [] ∧ Covers q.span (after.flatMap Piece.text) q.kind q.literal) := by
  induction h generalizing before with
  | last hgap =>
      obtain ⟨rfl, rfl, rfl⟩ : before = [] ∧ q = _ ∧ after = [] := by
        rcases List.singleton_eq_append_iff.mp hq with ⟨rfl, h⟩ | ⟨-, h⟩
        · simpa [eq_comm] using h
        · simp at h
      exact ⟨hgap, Or.inl ⟨rfl, rfl, rfl, rfl⟩⟩
  | @cons gap span rest literal k qs hgap hcovers hqs ih =>
      cases before with
      | nil =>
          obtain ⟨rfl, rfl⟩ : _ = q ∧ qs = after := by simpa using hq
          have hne : qs ≠ [] := by
            rintro rfl
            cases hqs
          rw [hqs.flatMap_text]
          exact ⟨hgap, Or.inr ⟨hne, hcovers⟩⟩
      | cons r before =>
          obtain ⟨-, hq⟩ : _ = r ∧ qs = before ++ q :: after := by simpa using hq
          exact ih hq

theorem Covers.legal {span rest literal : List UInt8} {k : TokenKind} (h : Covers span rest k literal)
    (hk : k ≠ .illegal) : literal = span ∧ k = kindOf span ∧
      ∀ more, more <+: rest → more ≠ [] → ¬ IsLegal (span ++ more) := by
  cases h with
  | token _ hlongest => exact ⟨rfl, rfl, hlongest⟩
  | unclosedString _ _ _ => exact absurd rfl hk
  | unclosedComment _ _ => exact absurd rfl hk
  | strayByte _ _ _ _ => exact absurd rfl hk

/-- **Tokenizing loses nothing.** A text without a NUL byte can be split into pieces, and the tokens of the
pieces are those that `tokenize` returns. The gaps hold nothing but blanks, line ends and complete
comments. The end of the text is the last piece and no other, and it is the only one that covers no
bytes. A token that is not illegal has the bytes it covers for its literal, they determine its kind, and
no longer part of the text from there on is a token. -/
theorem tokenize_splits {source : List UInt8} (hnul : 0 ∉ source) :
    (∃ qs, Splits source qs) ∧ ∀ qs, Splits source qs →
      qs.flatMap Piece.text = source ∧
      (tokenize source).map (fun t => (t.kind, t.literal)) = qs.map (fun q => (q.kind, q.literal)) ∧
      ∀ before q after, qs = before ++ q :: after →
        GapBefore (q.span ++ after.flatMap Piece.text) q.gap ∧
        (q.kind = .eof ↔ after = []) ∧ (q.kind = .eof ↔ q.span = []) ∧
        (q.kind ≠ .illegal → q.literal = q.span ∧ (q.kind ≠ .eof → q.kind = kindOf q.literal ∧
          ∀ more, more <+: after.flatMap Piece.text → more ≠ [] → ¬ IsLegal (q.literal ++ more))) := by
  refine ⟨exists_splits hnul, fun qs h => ⟨h.flatMap_text, ?_, ?_⟩⟩
  · rw [h.tokenize_eq hnul, map_tokensOf]
  · intro before q after hq
    obtain ⟨hgap, hend | htoken⟩ := h.cases_of_eq hq
    · obtain ⟨hafter, hspan, hkind, hliteral⟩ := hend
      refine ⟨hgap, ?_⟩
      simp [hafter, hspan, hkind, hliteral]
    · obtain ⟨hafter, hcovers⟩ := htoken
      have hne := hcovers.ne_eof
      refine ⟨hgap, by simp [hne, hafter], by simp [hne, hcovers.ne_nil], fun hk => ?_⟩
      obtain ⟨hliteral, hkind, hlongest⟩ := hcovers.legal hk
      rw [hliteral]
      exact ⟨rfl, fun _ => ⟨hkind, hlongest⟩⟩

/-- Symbols of two bytes, a comment with a quote in it and one with stars and slashes, bytes that start no
token, and a string that is not closed. -/
theorem tokenize_splits_mixed :
    let source := Text.encode "x<=10 // \"\n/* / **/é\"u"
    0 ∉ source ∧ ∃ qs, Splits source qs ∧ qs.flatMap Piece.text = source ∧
      qs.map (fun q => (q.kind, q.literal)) =
        [(.ident, Text.encode "x"), (.leq, Text.encode "<="), (.intLit, Text.encode "10"),
          (.illegal, Text.encode "Ã"), (.illegal, Text.encode "©"),
          (.illegal, Text.encode "unterminated string"), (.eof, [])] := by
  intro source
  have hnul : 0 ∉ source := by decide +kernel
  obtain ⟨⟨qs, hqs⟩, hsplit⟩ := tokenize_splits hnul
  obtain ⟨htext, htokens, -⟩ := hsplit qs hqs
  exact ⟨hnul, qs, hqs, htext, by rw [← htokens]; decide +kernel⟩

end FunLang.Lexer
