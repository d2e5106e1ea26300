import FunLang.Parser.Programs
import FunLang.Proofs.Text.Part
import FunLang.Proofs.Token.Spelling

set_option autoImplicit false

/-!
# Messages about the end of the input

Whether an input is to be continued is found out by looking for the words `end of input` in the messages
about it. A message quotes the token that it is about, so it has these words exactly if the token is the
end of the input or has them in its own text (`mentionsEnd_describe_iff`). Of the tokens that a text is
cut into, only a string can have them (`not_mentionsEnd_text`).
-/

namespace FunLang

/-- A message, or a part of one, that speaks of the end of the input. -/
def MentionsEnd (message : String) : Prop := Text.occursIn "end of input" message = true

instance (message : String) : Decidable (MentionsEnd message) := inferInstanceAs (Decidable (_ = true))

theorem mentionsEnd_framed_iff (before after : String) {s : String}
    (h : Text.isFrame "end of input" before after = true) :
    MentionsEnd (before ++ s ++ after) ↔ MentionsEnd s :=
  Text.occursIn_framed_iff h s

theorem mentionsEnd_append_iff (before : String) {s : String}
    (h : Text.isFrame "end of input" before "" = true) : MentionsEnd (before ++ s) ↔ MentionsEnd s := by
  have hframed := mentionsEnd_framed_iff before "" (s := s) h
  rwa [String.append_empty] at hframed

/-! ## The messages of the parsers -/

namespace Parser

theorem mentionsEnd_expected_iff (k : TokenKind) (t : Token) :
    MentionsEnd s!"expected {spelling k}, got {t.describe}" ↔ MentionsEnd t.describe :=
  mentionsEnd_append_iff ("expected " ++ spelling k ++ ", got ") (by cases k <;> decide)

theorem mentionsEnd_expectedType_iff (t : Token) :
    MentionsEnd s!"expected a type, got {t.describe}" ↔ MentionsEnd t.describe :=
  mentionsEnd_append_iff "expected a type, got " (by decide)

theorem mentionsEnd_inPattern_iff (t : Token) :
    MentionsEnd s!"unexpected {t.describe} in pattern" ↔ MentionsEnd t.describe :=
  mentionsEnd_framed_iff "unexpected " " in pattern" (by decide)

theorem mentionsEnd_inExpression_iff (t : Token) :
    MentionsEnd s!"unexpected {t.describe} in expression" ↔ MentionsEnd t.describe :=
  mentionsEnd_framed_iff "unexpected " " in expression" (by decide)

theorem mentionsEnd_afterExpression_iff (t : Token) :
    MentionsEnd s!"unexpected {t.describe} after expression" ↔ MentionsEnd t.describe :=
  mentionsEnd_framed_iff "unexpected " " after expression" (by decide)

theorem mentionsEnd_cannotBind_iff (name : String) :
    MentionsEnd s!"cannot bind constructor name '{name}'" ↔ MentionsEnd name :=
  mentionsEnd_framed_iff "cannot bind constructor name '" "'" (by decide)

theorem mentionsEnd_outOfRange_iff (negative : Bool) (digits : String) :
    let sign := if negative then "-" else ""
    MentionsEnd s!"integer literal {sign}{digits} out of range" ↔ MentionsEnd digits :=
  mentionsEnd_framed_iff ("integer literal " ++ if negative then "-" else "") " out of range"
    (by cases negative <;> decide)

theorem mentionsEnd_alreadyDeclared_iff (name : String) :
    MentionsEnd s!"constructor '{name}' is already declared" ↔ MentionsEnd name :=
  mentionsEnd_framed_iff "constructor '" "' is already declared" (by decide)

end Parser

/-! ## Tokens -/

namespace Token

theorem mentionsEnd_describe_of_eof {t : Token} (h : t.kind = .eof) : MentionsEnd t.describe := by
  unfold describe
  simp only [h]
  decide

/-- A token other than the end of the input is described by its text. -/
theorem mentionsEnd_describe_iff {t : Token} (h : t.kind ≠ .eof) :
    MentionsEnd t.describe ↔ MentionsEnd t.text := by
  unfold describe
  split
  · contradiction
  · exact mentionsEnd_append_iff _ (by decide)
  · rename_i hk
    rw [hk]
    exact mentionsEnd_append_iff _ (by decide)
  · rename_i hk
    rw [hk]
    exact mentionsEnd_append_iff _ (by decide)
  · rename_i hk
    rw [hk]
    exact mentionsEnd_append_iff _ (by decide)
  · exact mentionsEnd_framed_iff _ _ (by decide)

end Token

namespace Lexer

theorem length_itemsFrom_le (skip : Nat) (bs : List UInt8) :
    (Text.itemsFrom skip bs).length ≤ bs.length := by
  induction bs generalizing skip with
  | nil => cases skip <;> simp [Text.itemsFrom]
  | cons b bs ih =>
      cases skip with
      | succ skip => exact Nat.le_succ_of_le (ih skip)
      | zero =>
          rw [Text.itemsFrom]
          split
          · exact Nat.succ_le_succ (ih _)
          · exact Nat.succ_le_succ (ih 0)

/-- A text of a few bytes is too short to mention the end. -/
theorem not_mentionsEnd_of_length {bs : List UInt8} (h : bs.length < 12) :
    ¬ MentionsEnd (Text.decode bs) := by
  intro hm
  have hlen : 12 ≤ (Text.items bs).length := by
    simpa [Text.decode] using Text.length_le_of_occursIn hm
  have hitems : (Text.items bs).length ≤ bs.length := length_itemsFrom_le 0 bs
  omega

/-- A word or a number has no blank in it. -/
theorem not_mentionsEnd_of_isWordPart {bs : List UInt8} (h : ∀ b ∈ bs, isWordPart b = true) :
    ¬ MentionsEnd (Text.decode bs) := by
  intro hm
  have hblank : ' ' ∈ (Text.decode bs).toList := Text.mem_of_occursIn hm (by decide)
  have hbyte : (0x20 : UInt8) ∈ Text.encode (Text.decode bs) :=
    List.mem_flatMap.mpr ⟨' ', hblank, by decide⟩
  rw [Text.encode_decode fun b hb => toNat_lt_of_isWordPart (h b hb)] at hbyte
  exact absurd (h _ hbyte) (by decide)

theorem not_mentionsEnd_runLexeme {kind : List UInt8 → TokenKind} {p : UInt8 → Bool} {b : UInt8}
    {bs : List UInt8} (hp : ∀ c, p c = true → isWordPart c = true) (hb : isWordPart b = true) :
    ¬ MentionsEnd (Text.decode (runLexeme kind p b bs).literal) := by
  refine not_mentionsEnd_of_isWordPart fun c hc => ?_
  rcases List.mem_cons.mp hc with rfl | hc
  · exact hb
  · exact hp c (List.all_eq_true.mp List.all_takeWhile c hc)

theorem not_mentionsEnd_lexeme {b : UInt8} {bs : List UInt8} (h : (lexeme b bs).kind ≠ .stringLit) :
    ¬ MentionsEnd (Text.decode (lexeme b bs).literal) := by
  unfold lexeme at h ⊢
  cases hs : symbol? b bs with
  | some symbol =>
      have hle := (length_of_symbol? hs).2.1
      refine not_mentionsEnd_of_length ?_
      simp only [List.length_take]
      omega
  | none =>
      simp only [hs] at h ⊢
      by_cases hquote : b = 0x22
      · simp only [hquote, if_true] at h ⊢
        unfold stringLexeme at h ⊢
        have hunterminated : ¬ MentionsEnd (Text.decode (Text.encode "unterminated string")) := by decide
        cases hd : bs.dropWhile isStringPart with
        | nil => exact hunterminated
        | cons c rest =>
            by_cases hc : c = 0x22
            · simp [hd, hc] at h
            · simpa only [hc, if_false] using hunterminated
      · simp only [hquote, if_false]
        by_cases hletter : isLetter b = true
        · rw [if_pos hletter]
          exact not_mentionsEnd_runLexeme (fun _ => id) (by simp [isWordPart, hletter])
        · rw [if_neg hletter]
          by_cases hdigit : isDigit b = true
          · rw [if_pos hdigit]
            exact not_mentionsEnd_runLexeme (fun c hc => by simp [isWordPart, hc])
              (by simp [isWordPart, hdigit])
          · rw [if_neg hdigit]
            refine not_mentionsEnd_of_length ?_
            have hfour := String.length_utf8EncodeChar (Char.ofNat b.toNat)
            have hsize := Char.utf8Size_le_four (Char.ofNat b.toNat)
            simp only
            omega

/-- Of the tokens of a text only a string may mention the end of the input. -/
theorem not_mentionsEnd_text {source : List UInt8} {t : Token} (ht : t ∈ tokenize source)
    (hk : t.kind ≠ .stringLit) : ¬ MentionsEnd t.text :=
  forall_mem_tokensFrom (P := fun t => t.kind ≠ .stringLit → ¬ MentionsEnd t.text)
    (fun _ _ => show ¬ MentionsEnd (Text.decode []) by decide)
    (fun _ _ => show ¬ MentionsEnd (Text.decode (Text.encode "unterminated comment")) by decide)
    (fun _ _ _ => not_mentionsEnd_lexeme) _ _ t ht hk

end Lexer

end FunLang
