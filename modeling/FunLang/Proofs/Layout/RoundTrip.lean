import FunLang.Proofs.Layout.Programs
import FunLang.Proofs.Parser.Acceptance

set_option autoImplicit false

/-!
# Layouts are read back

The text of a well-formed expression or program is read without a message, and what is read is that
expression or program up to places (`parseExpr_expr`, `parseProgram_program`).

That the names of constructors can be written is part of being well-formed. A table may hold a
constructor whose name is a reserved word, but no text refers to it.
-/

namespace FunLang.Layout

open Grammar FunLang.Parser

/-- Reading the text of an expression, with the constructors known that it may refer to. -/
theorem parseExpr_expr {Γ : CtorTable} {e : Expr} (h : e.isWellFormed Γ = true) :
    (parseExpr (Text.encode (expr e)) Γ).2.diags = [] ∧
      (parseExpr (Text.encode (expr e)) Γ).1.unplaced = e.unplaced := by
  obtain ⟨ts, z, htokens, ⟨e', ⟨o, he'⟩, hunplaced⟩, hz⟩ := (writesAt_expr (.refl Γ) h).tokenize_eq
  have hdepth : 8 * ts.length + 4 ≤ depthFor (ts ++ [z]).length :=
    Nat.le_trans (by simp) (le_depthFor _)
  have hyields : Yields (soleExpr (depthFor (ts ++ [z]).length)) (.before Γ (ts ++ [z])) e'
      (.before Γ [z]) := by
    unfold soleExpr
    refine (yields_expr he' _ [z] hdepth (follows_of_closes (by simp [hz, closes]) o)).bind ?_
    exact (yields_finish (by simp [hz])).bind (yields_pure _ _)
  have hparse : parseExpr (Text.encode (expr e)) Γ = (e', .before Γ [z]) := by
    unfold parseExpr parseWith State.start
    rw [htokens]
    exact hyields
  rw [hparse]
  exact ⟨rfl, hunplaced⟩

/-- Reading the text of a program, with constructors known from elsewhere. -/
theorem parseProgram_program_in {Γ : CtorTable} {p : Program} (h : p.IsWellFormedIn Γ) :
    (parseProgram (Text.encode (program p)) Γ).2.diags = [] ∧
      (parseProgram (Text.encode (program p)) Γ).1.unplaced = p.unplaced := by
  obtain ⟨_, z, htokens, ⟨us, vs, Δ, ds, e, rfl, hds, he, hunplaced⟩, hz⟩ :=
    (spells_program h).tokenize_eq
  have hprogram : IsProgram Γ true (Lexer.tokenize (Text.encode (program p))) ⟨[], ds, e⟩ := by
    rw [htokens, List.append_assoc]
    exact IsProgram.mk .nil hds he hz
  obtain ⟨hdiags, heq⟩ := parseProgram_eq_of_isProgram hprogram
  exact ⟨hdiags, heq ▸ hunplaced⟩

/-- Reading the text of a program. -/
theorem parseProgram_program {p : Program} (h : p.isWellFormed = true) :
    (parseProgram (Text.encode (program p)) []).2.diags = [] ∧
      (parseProgram (Text.encode (program p)) []).1.unplaced = p.unplaced :=
  parseProgram_program_in (Program.isWellFormedIn_nil h)

/-- Every well-formed expression and every well-formed program is read back from its text. -/
theorem parse_layout :
    (∀ (Γ : CtorTable) (e : Expr), e.isWellFormed Γ = true →
      (parseExpr (Text.encode (expr e)) Γ).2.diags = [] ∧
        (parseExpr (Text.encode (expr e)) Γ).1.unplaced = e.unplaced) ∧
    ∀ p : Program, p.isWellFormed = true →
      (parseProgram (Text.encode (program p)) []).2.diags = [] ∧
        (parseProgram (Text.encode (program p)) []).1.unplaced = p.unplaced :=
  ⟨fun _ _ => parseExpr_expr, fun _ => parseProgram_program⟩

/-- An alternative that is not the last one and ends with a `case`, negative literals in a pattern,
as an operand and as an argument, and a body of several lines. -/
theorem parse_layout_cons :
    let cons : Constructor :=
      ⟨"Cons", [.name .unknown "Int", .name .unknown "List"], "List", .unknown⟩
    let inner : Expr :=
      .cases .unknown (.var .unknown "x") [.mk .unknown (.var .unknown "y") (.int .unknown (-2))]
    let e : Expr := .cases .unknown (.binary .unknown .sub (.int .unknown 1) (.int .unknown (-3)))
      [.mk .unknown (.ctor .unknown cons [.int .unknown (-1), .var .unknown "x"]) inner,
        .mk .unknown (.var .unknown "y")
          (.app .unknown (.ctor .unknown cons) [.int .unknown (-4), inner])]
    let p : Program :=
      ⟨[], [⟨"List", [cons], .unknown⟩], .letIn .unknown "x" (.bool .unknown true) e⟩
    e.isWellFormed [cons] = true ∧
      ((parseExpr (Text.encode (expr e)) [cons]).2.diags = [] ∧
        (parseExpr (Text.encode (expr e)) [cons]).1.unplaced = e.unplaced) ∧
      p.isWellFormed = true ∧
      (parseProgram (Text.encode (program p)) []).2.diags = [] ∧
        (parseProgram (Text.encode (program p)) []).1.unplaced = p.unplaced :=
  ⟨by decide, parse_layout.1 _ _ (by decide), by decide, parse_layout.2 _ (by decide)⟩

/-- A constructor that the table knows by a reserved word is not read back. -/
theorem parseExpr_layout_reserved :
    let c : Constructor := ⟨"let", [], "T", .unknown⟩
    CtorTable.find? [c] c.name = some c ∧
      (parseExpr (Text.encode (expr (.ctor .unknown c))) [c]).2.diags ≠ [] := by
  decide

end FunLang.Layout
