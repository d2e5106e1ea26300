import FunLang.Proofs.Grammar.Legal
import FunLang.Proofs.Parser.Complete.Lines
import FunLang.Proofs.Parser.Completion.Lines
import FunLang.Proofs.Parser.Cut.Lines
import FunLang.Proofs.Session.Atomicity
import FunLang.Proofs.Token.Continued
import FunLang.Repl

set_option autoImplicit false

/-!
# When an input is continued

The loop asks for another line if all errors of an input are about its end. This is meant to tell inputs
that can be gone on with from those that cannot, and up to a few exceptions it does
(`asksForMore_iff`). Two kinds of inputs are given up although they can be gone on with: one that ends
within a comment, and one that ends with the minus sign of a number. Two kinds are gone on with in vain:
one with a string that speaks of the end of the input, and one with a NUL in it.
-/

namespace FunLang.Repl

open FunLang.Parser Grammar Lexer

/-- The loop asks for another line. -/
def AsksForMore (o : Machine.Options) (s : Session) (text : List UInt8) : Prop :=
  ∃ s' out, eval o s text = some (s', true, out)

/-- The text is read without an error as an input of the session. -/
def Parses (s : Session) (text : List UInt8) : Prop :=
  Diagnostic.hasErrors (parseLine text s.ctors).2.diags = false

instance (s : Session) (text : List UInt8) : Decidable (Parses s text) :=
  inferInstanceAs (Decidable (_ = _))

/-- The text ends within a comment. -/
def EndsInComment (text : List UInt8) : Prop := ∃ t ∈ tokenize text, isUnclosed t = true

/-- The text ends with a minus sign, and the next line starts with a number. -/
def SignsNumber (text more : List UInt8) : Prop :=
  ∃ ts m z d us, tokenize text = ts ++ [m, z] ∧
    tokenize (text ++ 0x0A :: more) = ts ++ m :: d :: us ∧ m.kind = .minus ∧ d.kind = .intLit

/-- A string in the text speaks of the end of the input. -/
def QuotesEnd (text : List UInt8) : Prop :=
  ∃ t ∈ tokenize text, t.kind = .stringLit ∧ MentionsEnd t.text

variable {o : Machine.Options} {s : Session} {text more : List UInt8}

/-! ## Errors about the end -/

/-- All messages about a line are errors. -/
theorem isIncomplete_iff {source : List UInt8} {Γ : CtorTable} :
    isIncomplete (parseLine source Γ).2.diags = true ↔ (parseLine source Γ).2.AboutEnd := by
  have herrors : ∀ d ∈ (parseLine source Γ).2.diags, d.severity = .error :=
    (ensures_line true _ _ (State.consistent_start .none source Γ)).1.errors
  have hall : Diagnostic.errors (parseLine source Γ).2.diags = (parseLine source Γ).2.diags :=
    List.filter_eq_self.mpr fun d hd => by simpa using herrors d hd
  rw [isIncomplete, hall, List.all_eq_true]
  rfl

theorem asksForMore_iff_aboutEnd : AsksForMore o s text ↔
    ¬ Parses s text ∧ (parseLine text s.ctors).2.AboutEnd := by
  rw [← isIncomplete_iff, Parses, Bool.not_eq_false]
  constructor
  · rintro ⟨s', out, h⟩
    obtain ⟨⟨s₁, a, ds, log⟩, heval, h⟩ := Option.bind_eq_some_iff.mp h
    rw [← Session.diags_eval heval]
    rcases Session.eval_cases heval with ⟨herrors, -, rfl⟩ | ⟨-, line, -, hperforms⟩
    · refine ⟨herrors, ?_⟩
      by_contra hincomplete
      simp [hincomplete] at h
    · cases hperforms <;> simp at h
  · rintro ⟨herrors, hincomplete⟩
    refine ⟨s, ⟨"", Log.lines o.level []⟩, ?_⟩
    simp [eval, Session.eval, herrors, hincomplete]

/-! ## Going on -/

theorem parseLine_eq_run {source : List UInt8} {ts : List Token} {z : Token}
    (h : tokenize source = ts ++ [z]) (Γ : CtorTable) :
    parseLine source Γ = (line (depthFor (ts ++ [z]).length)).run (.before Γ (ts ++ [z])) := by
  rw [← h]
  rfl

/-- An input that can be gone on with has no error but that it ends. -/
theorem aboutEnd_of_parses (hnul : 0 ∉ text) (hcomment : ¬ EndsInComment text)
    (htext : ¬ Parses s text) (hsign : ¬ SignsNumber text more)
    (hmore : Parses s (text ++ 0x0A :: more)) : (parseLine text s.ctors).2.AboutEnd := by
  have hclosed : ∀ t ∈ tokenize text, isUnclosed t = false := by
    simpa [EndsInComment] using hcomment
  obtain ⟨ts, z, p, n, htokens, hz, -, hcontinued⟩ := tokenize_continued more hnul hclosed
  generalize tokensFrom n ⟨more, p⟩ = us at hcontinued
  -- a number behind a minus sign is the one way in which the next line changes what has been read
  have hseparate : Separate ts us := by
    intro m hm hminus hint
    obtain ⟨ts', rfl⟩ := List.getLast?_eq_some_iff.mp hm
    cases us with
    | nil => simp [nextKind, Token.endAt] at hint
    | cons d us =>
        exact hsign ⟨ts', m, z, d, us, by simpa using htokens, by simpa using hcontinued, hminus, hint⟩
  -- the bound for the whole text is not below that for the part of it
  have hline := isLine_parseLine true hmore
  rw [hcontinued] at hline
  obtain ⟨Γ', rest, hyields⟩ := yields_line hline (8 * (ts ++ us).length + 4 + depthFor (ts ++ [z]).length)
    (Nat.le_add_right _ _)
  have hdepth : 8 * (ts.length + 1) + 4 ≤ depthFor (ts ++ [z]).length := by
    rw [List.length_append]
    exact le_depthFor _
  have htracks := (tracks_line hz _ _ ts.length (Nat.le_add_left (depthFor (ts ++ [z]).length) _)
    (by omega)).at_le s.ctors ts le_rfl hseparate _ Γ' rest hyields
  rcases htracks with ⟨ws, -, -, -, hclean⟩ | hexhausted
  · have hdiags : (parseLine text s.ctors).2.diags = [] := by
      rw [parseLine_eq_run htokens, hclean]
      rfl
    exact absurd (hasErrors_parseLine_iff.mpr hdiags) htext
  · rw [parseLine_eq_run htokens]
    exact hexhausted.messages

/-- The tokens of a text that goes on on the next line with tokens of the set `P`. -/
theorem tokenize_opens {ts : List Token} {z : Token} (htokens : tokenize text = ts ++ [z])
    (hnul : 0 ∉ text) (hclosed : ∀ t ∈ tokenize text, isUnclosed t = false)
    {line : String} {P : List Token → Prop} (hline : Opens line P) :
    ∃ us y, tokenize (text ++ 0x0A :: Text.encode line) = ts ++ (us ++ [y]) ∧ P us ∧ y.kind = .eof := by
  obtain ⟨ts', z', p, n, htokens', -, hn, hcontinued⟩ := tokenize_continued (Text.encode line) hnul hclosed
  obtain ⟨rfl, -⟩ := List.append_inj' (htokens'.symm.trans htokens) rfl
  obtain ⟨us, y, hus, hP, hy⟩ := hline.spells.tokensFrom_eq p hn
  exact ⟨us, y, by rw [hcontinued, hus], hP, hy⟩

/-- Tokens that are no numbers are none behind a minus sign. -/
theorem not_signsNumber {ts us : List Token} {y z : Token}
    (htokens : tokenize text = ts ++ [z])
    (hcontinued : tokenize (text ++ 0x0A :: more) = ts ++ (us ++ [y]))
    (hus : ∀ u ∈ us, u.kind ≠ .intLit) (hy : y.kind = .eof) : ¬ SignsNumber text more := by
  rintro ⟨ts', m, z', d, us', htokens', hcontinued', -, hd⟩
  have hts : ts ++ [z] = (ts' ++ [m]) ++ [z'] := by
    rw [← htokens, htokens', List.append_assoc]
    rfl
  obtain ⟨rfl, -⟩ := List.append_inj' hts rfl
  have heq : d :: us' = us ++ [y] := by
    simpa [hcontinued] using hcontinued'.symm
  have hmem : d ∈ us ++ [y] := heq ▸ List.mem_cons_self
  rcases List.mem_append.mp hmem with hd' | hd'
  · exact hus d hd' hd
  · rw [List.mem_singleton.mp hd', hy] at hd
    cases hd

/-- An input whose errors are all about its end can be gone on with, by a line that is a text. -/
theorem exists_parses_of_aboutEnd (hnul : 0 ∉ text) (hstrings : ¬ QuotesEnd text)
    (htext : ¬ Parses s text) (hend : (parseLine text s.ctors).2.AboutEnd) :
    ¬ EndsInComment text ∧ ∃ line, ¬ SignsNumber text (Text.encode line) ∧
      Parses s (text ++ 0x0A :: Text.encode line) := by
  obtain ⟨ts, z, htokens, hinside, hz⟩ := tokenize_eq_concat text
  have hts : Ordinary ts := by
    intro t ht
    have hmem : t ∈ tokenize text := htokens ▸ List.mem_append_left [z] ht
    refine ⟨hinside t ht, fun hm => ?_⟩
    by_cases hk : t.kind = .stringLit
    · exact hstrings ⟨t, hmem, hk, hm⟩
    · exact not_mentionsEnd_text hmem hk hm
  have hdiags : (parseLine text s.ctors).2.diags ≠ [] := fun h =>
    htext (hasErrors_parseLine_iff.mpr h)
  rw [parseLine_eq_run htokens] at hend hdiags
  have hdepth : 8 * (ts.length + 1) + 4 ≤ depthFor (ts ++ [z]).length := by
    rw [List.length_append]
    exact le_depthFor _
  obtain ⟨more, hmore⟩ := completesAt_line hz _ (ts.length + 1) hdepth (Nat.lt_succ_self _) hts hend hdiags
  -- the tokens of a line are legal ones, and so none of them is a comment that is not closed
  have hclosed : ∀ t ∈ tokenize text, isUnclosed t = false := by
    obtain ⟨us, y, -, ⟨hline, -⟩, hy⟩ := hmore.spells.tokenize_eq
    obtain ⟨l, hl⟩ := hline z hz
    have hlegal : Legal (ts ++ [z]) := by
      have hall := hl.legal
      simp only [legal_append_iff] at hall ⊢
      exact ⟨hall.1.1, hall.2⟩
    intro t ht
    simp [isUnclosed, hlegal t (htokens ▸ ht)]
  obtain ⟨us, y, hcontinued, ⟨hline, hus⟩, hy⟩ := tokenize_opens htokens hnul hclosed hmore
  refine ⟨by simpa [EndsInComment] using hclosed, more, not_signsNumber htokens hcontinued hus hy, ?_⟩
  obtain ⟨l, hl⟩ := hline y hy
  refine parseLine_accepts_iff.mpr ⟨l, ?_⟩
  rw [hcontinued, ← List.append_assoc]
  exact hl

/-- The loop asks for another line exactly if the input does not parse and can be gone on with, other than
by closing a comment or by the number behind a minus sign. If it does, a text will do for the next line. -/
theorem asksForMore_iff (o : Machine.Options) (s : Session) (text : List UInt8) (hnul : 0 ∉ text)
    (hstrings : ¬ QuotesEnd text) :
    (AsksForMore o s text ↔ ¬ Parses s text ∧ ¬ EndsInComment text ∧
      ∃ more, ¬ SignsNumber text more ∧ Parses s (text ++ 0x0A :: more)) ∧
    (AsksForMore o s text → ∃ line, ¬ SignsNumber text (Text.encode line) ∧
      Parses s (text ++ 0x0A :: Text.encode line)) := by
  rw [asksForMore_iff_aboutEnd]
  refine ⟨⟨?_, ?_⟩, ?_⟩
  · rintro ⟨htext, hend⟩
    obtain ⟨hcomment, line, hline⟩ := exists_parses_of_aboutEnd hnul hstrings htext hend
    exact ⟨htext, hcomment, Text.encode line, hline⟩
  · rintro ⟨htext, hcomment, more, hsign, hmore⟩
    exact ⟨htext, aboutEnd_of_parses hnul hcomment htext hsign hmore⟩
  · rintro ⟨htext, hend⟩
    exact (exists_parses_of_aboutEnd hnul hstrings htext hend).2

theorem asksForMore_iff_open_paren :
    0 ∉ Text.encode "let x = (1 +" ∧ ¬ QuotesEnd (Text.encode "let x = (1 +") ∧
    ∃ line, ¬ SignsNumber (Text.encode "let x = (1 +") (Text.encode line) ∧
      Parses .empty (Text.encode "let x = (1 +" ++ 0x0A :: Text.encode line) := by
  have hnul : 0 ∉ Text.encode "let x = (1 +" := by decide
  have hstrings : ¬ QuotesEnd (Text.encode "let x = (1 +") := by
    unfold QuotesEnd
    decide
  have hasks : AsksForMore ⟨0, Machine.quiet, Log.info⟩ .empty (Text.encode "let x = (1 +") :=
    ⟨_, _, rfl⟩
  exact ⟨hnul, hstrings, (asksForMore_iff _ _ _ hnul hstrings).2 hasks⟩

/-- A minus sign is given up although its number may come on the next line. -/
theorem not_asksForMore_minus :
    ¬ AsksForMore ⟨0, Machine.quiet, Log.info⟩ .empty (Text.encode "-") ∧
      ¬ Parses .empty (Text.encode "-") ∧ Parses .empty (Text.encode "-" ++ 0x0A :: Text.encode "5") := by
  rw [asksForMore_iff_aboutEnd, ← isIncomplete_iff]
  decide

end FunLang.Repl
