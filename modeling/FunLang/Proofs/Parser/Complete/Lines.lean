import FunLang.Proofs.Parser.Sound.Lines

set_option autoImplicit false

/-!
# Lines are read

Every interactive line of the grammar in its innermost reading is read as that line, and nothing is
reported. A text is therefore read as a line without an error exactly if its tokens are a line of the
grammar (`parseLine_accepts_iff`).
-/

namespace FunLang.Parser

open Grammar

variable {Γ : CtorTable}

/-- The `let` of a definition ends where the line does. -/
theorem yields_definition {l x a : Token} {ts : List Token} {bound : Expr} {o : Bool}
    (hl : l.kind = .kwLet) (hx : IsVariable Γ x) (ha : a.kind = .assign)
    (hbound : IsExpr Γ true ts bound o) (n : Nat) (rest : List Token) (hn : 8 * ts.length + 4 ≤ n)
    (hrest : nextKind rest = .eof ∨ nextKind rest = .semicolon) :
    Yields (definition n) (.before Γ (l :: x :: a :: (ts ++ rest))) (some x.text, bound)
      (.before Γ rest) := by
  have hnext : closes (nextKind rest) = true := by rcases hrest with hk | hk <;> rw [hk] <;> rfl
  unfold definition
  refine (yields_expect hl _).bind ((yields_binderName hx _).bind ((yields_expect ha _).bind ?_))
  refine (yields_expr hbound n rest hn (follows_of_closes hnext o)).bind (yields_current_bind ?_)
  rw [State.kind_current_before, if_pos hrest]
  exact yields_pure _ _

theorem yields_definition_letIn {l x a i : Token} {ts us : List Token} {bound body : Expr} {o o' : Bool}
    (hl : l.kind = .kwLet) (hx : IsVariable Γ x) (ha : a.kind = .assign)
    (hbound : IsExpr Γ true ts bound o) (hi : i.kind = .kwIn) (hbody : IsExpr Γ true us body o') (n : Nat)
    (rest : List Token) (hn : 8 * (ts.length + us.length) + 4 ≤ n) (hrest : Follows o' rest) :
    Yields (definition n) (.before Γ (l :: x :: a :: (ts ++ i :: (us ++ rest))))
      (none, .letIn l.pos x.text bound body) (.before Γ rest) := by
  unfold definition
  refine (yields_expect hl _).bind ((yields_binderName hx _).bind ((yields_expect ha _).bind ?_))
  refine (yields_expr hbound n _ (by omega) (follows_of_closes (by simp [hi, closes]) _)).bind ?_
  refine yields_current_bind ?_
  rw [if_neg (by simp [hi])]
  refine (yields_expect hi _).bind ?_
  exact (yields_expr hbody n rest (by omega) hrest).bind (yields_pure _ _)

/-- A line with an entry is read up to `rest`, which is then read as its end. -/
theorem yields_line_of_entry {Γ' : CtorTable} {ts us rest rest' : List Token} {ds : List DataDecl}
    {name : Option String} {e : Expr} (hds : AreData Γ ts ds Γ') (h : IsEntry Γ' true us name e) (n : Nat)
    (hn : 8 * (ts.length + us.length) + 4 ≤ n)
    (hrest : nextKind rest = .eof ∨ nextKind rest = .semicolon)
    (hfinish : Yields finish (.before Γ' rest) () (.before Γ' rest')) :
    Yields (line n) (.before Γ (ts ++ (us ++ rest))) ⟨ds, name, e⟩ (.before Γ' rest') := by
  have hnext : closes (nextKind rest) = true := by rcases hrest with hk | hk <;> rw [hk] <;> rfl
  unfold line
  refine (yields_dataDecls hds n _ (by omega) (h.starts.nextKind_ne rfl rest)).bind ?_
  refine yields_current_bind ?_
  rw [State.kind_current_before]
  cases h with
  | define hl hx ha hbound =>
      simp only [List.length_cons] at hn
      simp only [List.cons_append, nextKind_cons, hl]
      refine (yields_definition hl hx ha hbound n rest (by omega) hrest).bind ?_
      exact hfinish.bind (yields_pure _ _)
  | expr h =>
      by_cases hk : nextKind (us ++ rest) = .kwLet
      · cases h with
        | letIn hl hx ha hbound hi hbody =>
            simp only [List.length_cons, List.length_append] at hn
            simp only [List.cons_append, List.append_assoc, nextKind_cons, hl]
            refine (yields_definition_letIn hl hx ha hbound hi hbody n rest (by omega)
              (follows_of_closes hnext _)).bind ?_
            exact hfinish.bind (yields_pure _ _)
        | fn hf _ _ _ => rcases hf.eq_or with hf | hf <;> simp [hf] at hk
        | cond hi _ _ _ _ _ => simp [hi] at hk
        | cases hc _ _ _ _ => simp [hc] at hk
        | binary h => exact absurd hk (h.starts.nextKind_ne rfl rest)
      · have heof : nextKind (us ++ rest) ≠ .eof := h.starts.nextKind_ne rfl rest
        split
        · contradiction
        · contradiction
        · refine (yields_expr h n rest (by omega) (follows_of_closes hnext _)).bind ?_
          exact hfinish.bind (yields_pure _ _)

theorem yields_line {ts : List Token} {l : Line} (h : IsLine Γ true ts l) (n : Nat)
    (hn : 8 * ts.length + 4 ≤ n) : ∃ Γ' rest, Yields (line n) (.before Γ ts) l (.before Γ' rest) := by
  obtain @⟨Γ', ts, us, z, ds, name, e, hds, he, hz⟩ := h
  have heof : nextKind [z] = .eof := hz
  simp only [List.length_append] at hn
  refine ⟨Γ', [z], ?_⟩
  cases he with
  | missing =>
      unfold line
      refine (yields_dataDecls hds n _ (by omega) (by simp [hz])).bind (yields_current_bind ?_)
      simp only [List.nil_append, State.current_before_cons, hz]
      exact yields_pure _ _
  | entry h => exact yields_line_of_entry hds h n (by omega) (Or.inl heof) (yields_finish heof)
  | terminated h hs =>
      simp only [List.length_append] at hn
      rw [List.append_assoc]
      exact yields_line_of_entry hds h n (by omega) (Or.inr hs) (yields_finish_semicolon hs heof)

variable {source : List UInt8}

theorem parseLine_eq_of_isLine {l : Line} (h : IsLine Γ true (Lexer.tokenize source) l) :
    (parseLine source Γ).2.diags = [] ∧ (parseLine source Γ).1 = l := by
  obtain ⟨Γ', rest, hyields⟩ :=
    yields_line h (depthFor (Lexer.tokenize source).length) (le_depthFor _)
  have hparse : parseLine source Γ = (l, .before Γ' rest) := hyields
  rw [hparse]
  exact ⟨rfl, rfl⟩

/-- A text is read as a line without an error exactly if its tokens are a line of the grammar. -/
theorem parseLine_accepts_iff : Diagnostic.hasErrors (parseLine source Γ).2.diags = false ↔
    ∃ l, IsLine Γ false (Lexer.tokenize source) l := by
  constructor
  · intro h
    exact ⟨_, isLine_parseLine false h⟩
  · rintro ⟨l, h⟩
    obtain ⟨l', h'⟩ := h.innermost
    exact hasErrors_parseLine_iff.mpr (parseLine_eq_of_isLine h').1

end FunLang.Parser
