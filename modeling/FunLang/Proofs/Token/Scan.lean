import FunLang.Proofs.Token.Continued

set_option autoImplicit false

/-!
# Reading tokens comes to an end

`tokenize` reads a bounded number of tokens. Here the bound is left out: tokens are read one after the
other until the end of the input turns up (`Scans`), which need not happen ever. It does, since every other
token takes a byte (`length_next_lt`), and the tokens read are those of `tokenize`, whatever the bytes
of the text are (`scans_tokenize`).
-/

namespace FunLang.Lexer

/-! ## Gaps -/

/-- The bytes left behind a gap. A comment that is not closed counts as one more, since it is still to be
made a token. -/
def Gap.size : Gap → Nat
  | .passed c => c.rest.length
  | .unclosed _ c => c.rest.length + 1

mutual

theorem size_skipGap_le : ∀ (bs : List UInt8) (p : Pos), (skipGap bs p).size ≤ bs.length
  | [], p => by simp [skipGap, Gap.size]
  | b :: bs, p => by
      rw [skipGap.eq_def]
      dsimp only
      split_ifs
      · exact Nat.le_succ_of_le (size_skipGap_le bs _)
      · exact Nat.le_succ_of_le (size_skipGap_le bs _)
      · -- the mark that opens a comment has two bytes
        cases bs with
        | nil => exact Nat.le_refl 1
        | cons c cs =>
            have hline := size_skipLine_le cs (p.right 2)
            have hblock := size_skipBlock_le p cs (p.right 2)
            simp only [List.length_cons]
            split_ifs
            · omega
            · omega
            · exact Nat.le_refl _
      · exact Nat.le_refl _

theorem size_skipLine_le : ∀ (bs : List UInt8) (p : Pos), (skipLine bs p).size ≤ bs.length
  | [], p => by simp [skipLine, Gap.size]
  | b :: bs, p => by
      rw [skipLine.eq_def]
      dsimp only
      split_ifs
      · exact Nat.le_succ_of_le (size_skipGap_le bs _)
      · exact Nat.le_refl _
      · exact Nat.le_succ_of_le (size_skipLine_le bs _)

theorem size_skipBlock_le (start : Pos) : ∀ (bs : List UInt8) (p : Pos),
    (skipBlock start bs p).size ≤ bs.length + 1
  | [], p => by simp [skipBlock, Gap.size]
  | b :: bs, p => by
      rw [skipBlock.eq_def]
      dsimp only
      split_ifs
      · exact Nat.le_refl _
      · exact Nat.le_succ_of_le (size_skipBlock_le start bs _)
      · cases bs with
        | nil => exact Nat.le_succ_of_le (size_skipBlock_le start [] _)
        | cons c cs =>
            have hgap := size_skipGap_le cs (p.right 2)
            have hblock := size_skipBlock_le start (c :: cs) (p.right 1)
            simp only [List.length_cons] at hblock ⊢
            split_ifs
            · omega
            · omega
      · exact Nat.le_succ_of_le (size_skipBlock_le start bs _)

end

/-! ## Tokens -/

/-- Every token but the end of the input takes a byte. -/
theorem length_next_lt {c : Cursor} (h : (next c).1.kind ≠ .eof) :
    (next c).2.rest.length < c.rest.length := by
  have hsize := size_skipGap_le c.rest c.pos
  unfold next at h ⊢
  split at h
  · rename_i start stop hgap
    rw [hgap] at hsize
    exact hsize
  · exact absurd rfl h
  · rename_i b bs p hgap
    rw [hgap] at hsize
    split_ifs at h with hnul
    · exact absurd rfl h
    · simp only [hnul, if_false]
      calc (lexeme b bs).rest.length ≤ bs.length := (lexeme_rest_suffix b bs).length_le
        _ < (b :: bs).length := Nat.lt_succ_self _
        _ ≤ c.rest.length := hsize

/-- The tokens that are read from a cursor one after the other, up to the end of the input. -/
inductive Scans : Cursor → List Token → Prop where
  | stop {c : Cursor} : (next c).1.kind = .eof → Scans c [(next c).1]
  | more {c : Cursor} {ts : List Token} :
      (next c).1.kind ≠ .eof → Scans (next c).2 ts → Scans c ((next c).1 :: ts)

theorem Scans.length_le {c : Cursor} {ts : List Token} (h : Scans c ts) :
    ts.length ≤ c.rest.length + 1 := by
  induction h with
  | stop h => simp
  | more h _ ih =>
      have hlt := length_next_lt h
      simp only [List.length_cons]
      omega

/-- A bound above the number of bytes does not cut anything off. -/
theorem scans_tokensFrom {n : Nat} {c : Cursor} (h : c.rest.length < n) : Scans c (tokensFrom n c) := by
  induction n generalizing c with
  | zero => omega
  | succ n ih =>
      rw [tokensFrom]
      by_cases heof : (next c).1.kind = .eof
      · simp only [heof, if_true]
        exact .stop heof
      · have hlt := length_next_lt heof
        simp only [heof, if_false]
        exact .more heof (ih (by omega))

theorem scans_tokenize (source : List UInt8) : Scans ⟨source, .start⟩ (tokenize source) :=
  scans_tokensFrom (Nat.lt_succ_self source.length)

theorem length_tokenize_le (source : List UInt8) : (tokenize source).length ≤ source.length + 1 :=
  (scans_tokenize source).length_le

end FunLang.Lexer
