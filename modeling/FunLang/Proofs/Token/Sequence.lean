import FunLang.Token.Lexer
import Mathlib.Tactic

set_option autoImplicit false

/-!
# The shape of a token sequence

The tokens of a source text end with the end of the input, which stands nowhere else among them
(`tokenize_eq_concat`), and every string among them is in quotes (`exists_quoted_of_mem_tokenize`).
-/

namespace FunLang

/-- A word is an identifier or has the kind of a reserved word. -/
theorem TokenKind.ofWord_ne {k : TokenKind} (hident : k ≠ .ident) (hk : k ∉ keywords.map Prod.snd)
    (word : String) : TokenKind.ofWord word ≠ k := by
  unfold TokenKind.ofWord
  cases h : TokenKind.keywords.lookup word with
  | none => exact hident.symm
  | some k' =>
      obtain ⟨l₁, l₂, heq, -⟩ := List.lookup_eq_some_iff.mp h
      rintro rfl
      exact hk (List.mem_map.mpr ⟨(word, k'), by rw [heq]; simp, rfl⟩)

namespace Lexer

theorem tokensFrom_eq_concat : ∀ (n : Nat) (c : Cursor), ∃ ts z, tokensFrom n c = ts ++ [z] ∧
    (∀ t ∈ ts, t.kind ≠ .eof) ∧ z.kind = .eof
  | 0, c => ⟨[], .endAt c.pos, rfl, by simp, rfl⟩
  | n + 1, c => by
      rw [tokensFrom]
      by_cases h : (next c).1.kind = .eof
      · exact ⟨[], (next c).1, by simp [h], by simp, h⟩
      · obtain ⟨ts, z, heq, hts, hz⟩ := tokensFrom_eq_concat n (next c).2
        refine ⟨(next c).1 :: ts, z, by simp [h, heq], ?_, hz⟩
        simpa [h] using hts

/-- The end of the input is the last token and no other one. -/
theorem tokenize_eq_concat (source : List UInt8) : ∃ ts z, tokenize source = ts ++ [z] ∧
    (∀ t ∈ ts, t.kind ≠ .eof) ∧ z.kind = .eof :=
  tokensFrom_eq_concat _ _

/-- A symbol is neither a word nor a string. -/
theorem symbol?_ne {b : UInt8} {bs : List UInt8} {k : TokenKind} {n : Nat}
    (h : symbol? b bs = some (k, n)) : k ∉ [.ident, .stringLit, .intType, .boolType] := by
  intro hk
  simp only [List.mem_cons, List.not_mem_nil, or_false] at hk
  unfold symbol? at h
  rcases hk with rfl | rfl | rfl | rfl <;>
    simp only [ite_eq_iff, Option.some.injEq, Prod.mk.injEq, reduceCtorEq, false_and, and_false,
      or_self] at h

theorem symbol?_ne_eof {b : UInt8} {bs : List UInt8} {k : TokenKind} {n : Nat}
    (h : symbol? b bs = some (k, n)) : k ≠ .eof := by
  rintro rfl
  unfold symbol? at h
  simp only [ite_eq_iff, Option.some.injEq, Prod.mk.injEq, reduceCtorEq, false_and, and_false,
    or_self] at h

/-- A symbol has one or two bytes. -/
theorem length_of_symbol? {b : UInt8} {bs : List UInt8} {k : TokenKind} {n : Nat}
    (h : symbol? b bs = some (k, n)) : 1 ≤ n ∧ n ≤ 2 ∧ n ≤ (b :: bs).length := by
  unfold symbol? at h
  cases bs with
  | nil =>
      simp only [List.head?_nil, reduceCtorEq, if_false, ite_eq_iff, Option.some.injEq, Prod.mk.injEq,
        and_false, or_false] at h
      simp only [List.length_singleton]
      omega
  | cons c bs =>
      simp only [ite_eq_iff, Option.some.injEq, Prod.mk.injEq, reduceCtorEq, and_false, or_false] at h
      simp only [List.length_cons]
      omega

theorem exists_quoted_of_stringLexeme {bs : List UInt8} (h : (stringLexeme bs).kind = .stringLit) :
    ∃ content, (stringLexeme bs).literal = 0x22 :: (content ++ [0x22]) ∧
      ∀ b ∈ content, isStringPart b = true := by
  unfold stringLexeme at h ⊢
  cases hd : bs.dropWhile isStringPart with
  | nil => simp [hd] at h
  | cons b rest =>
      by_cases hb : b = 0x22
      · refine ⟨bs.takeWhile isStringPart, by simp [hb], ?_⟩
        exact List.all_eq_true.mp List.all_takeWhile
      · simp [hd, hb] at h

theorem exists_quoted_of_lexeme {b : UInt8} {bs : List UInt8}
    (h : (lexeme b bs).kind = .stringLit) :
    ∃ content, (lexeme b bs).literal = 0x22 :: (content ++ [0x22]) ∧
      ∀ b ∈ content, isStringPart b = true := by
  unfold lexeme at h ⊢
  cases hs : symbol? b bs with
  | some symbol =>
      simp only [hs] at h
      exact absurd (by simp [h]) (symbol?_ne hs)
  | none =>
      simp only [hs] at h ⊢
      by_cases hquote : b = 0x22
      · simp only [hquote, if_true] at h ⊢
        exact exists_quoted_of_stringLexeme h
      · simp only [hquote, if_false] at h
        split_ifs at h
        · exact absurd h (TokenKind.ofWord_ne (by decide) (by decide) _)
        · cases h

/-- What holds for the end of the input, for a comment that is not closed and for every lexeme holds for
all tokens. -/
theorem forall_mem_tokensFrom {P : Token → Prop} (hend : ∀ p, P (.endAt p))
    (hcomment : ∀ p, P ⟨.illegal, Text.encode "unterminated comment", p⟩)
    (hlexeme : ∀ b bs p, P ⟨(lexeme b bs).kind, (lexeme b bs).literal, p⟩) (n : Nat) (c : Cursor) :
    ∀ t ∈ tokensFrom n c, P t := by
  have hnext : ∀ c, P (next c).1 := by
    intro c
    unfold next
    split
    · exact hcomment _
    · exact hend _
    · split
      · exact hend _
      · exact hlexeme _ _ _
  induction n generalizing c with
  | zero =>
      intro t ht
      rw [List.mem_singleton.mp ht]
      exact hend c.pos
  | succ n ih =>
      intro t ht
      rw [tokensFrom] at ht
      by_cases h : (next c).1.kind = .eof
      · simp only [h, if_true, List.mem_singleton] at ht
        exact ht ▸ hnext c
      · simp only [h, if_false, List.mem_cons] at ht
        rcases ht with rfl | ht
        · exact hnext c
        · exact ih (next c).2 t ht

/-- Every string among the tokens is in quotes. -/
theorem exists_quoted_of_mem_tokenize {source : List UInt8} {t : Token} (ht : t ∈ tokenize source)
    (hk : t.kind = .stringLit) : ∃ content, t.literal = 0x22 :: (content ++ [0x22]) ∧
      ∀ b ∈ content, isStringPart b = true :=
  forall_mem_tokensFrom
    (P := fun t => t.kind = .stringLit → ∃ content, t.literal = 0x22 :: (content ++ [0x22]) ∧
      ∀ b ∈ content, isStringPart b = true)
    (fun _ hk => nomatch hk) (fun _ hk => nomatch hk) (fun _ _ _ => exists_quoted_of_lexeme) _ _ t ht hk

end Lexer

end FunLang
