import FunLang.Proofs.Grammar.WellFormed
import FunLang.Proofs.Layout.RoundTrip

set_option autoImplicit false

/-!
# Layout is canonical

Whatever has been read from a source text without an error is laid out in a text that is read again,
with the same tree up to places. Laying out that tree gives the same text, so a text that has been
laid out once is not changed by doing it again.

Two things come together here. What is read without an error is well-formed, because it is a phrase of
the grammar (`Grammar.IsExpr.isWellFormed`), and the text of a tree does not depend on places
(`expr_unplaced`, `program_unplaced`).
-/

namespace FunLang

open Grammar

/-! ## Texts and places -/

theorem Ty.isArrow_unplaced (t : Ty) : t.unplaced.isArrow = t.isArrow := by
  cases t <;> rfl

theorem Ty.render_unplaced (t : Ty) : t.unplaced.render = t.render := by
  induction t with
  | missing => rfl
  | name _ n => rfl
  | arrow _ t u iht ihu =>
      rw [Ty.unplaced, Ty.render, Ty.render, Ty.isArrow_unplaced, iht, ihu]

theorem Ty.renderFields_unplaced (ts : List Ty) :
    Ty.renderFields (ts.map Ty.unplaced) = Ty.renderFields ts := by
  have hfield : Ty.renderField ∘ Ty.unplaced = Ty.renderField := by
    funext t
    simp only [Function.comp_apply, Ty.renderField, Ty.isArrow_unplaced, Ty.render_unplaced]
  rw [Ty.renderFields, List.map_map, hfield, Ty.renderFields]

theorem Alt.isEmpty_unplacedAll (alts : List Alt) : (Alt.unplacedAll alts).isEmpty = alts.isEmpty := by
  cases alts with
  | nil => rfl
  | cons a alts =>
      obtain ⟨p, q, e⟩ := a
      rfl

namespace Layout

mutual

theorem patternAt_unplaced (nested : Bool) : ∀ p : Pattern, patternAt nested p.unplaced = patternAt nested p
  | .missing => rfl
  | .int .. => rfl
  | .bool .. => rfl
  | .var .. => rfl
  | .ctor _ c [] => rfl
  | .ctor _ c (p :: ps) => by
      have hargs := patternArgs_unplaced (p :: ps)
      rw [Pattern.unplaced, Pattern.unplacedAll, patternAt, patternAt, ← Pattern.unplacedAll, hargs]
      rfl

theorem patternArgs_unplaced : ∀ ps : List Pattern, patternArgs (Pattern.unplacedAll ps) = patternArgs ps
  | [] => rfl
  | p :: ps => by
      rw [Pattern.unplacedAll, patternArgs, patternArgs, patternAt_unplaced true p,
        patternArgs_unplaced ps]

end

mutual

theorem exprAt_unplaced : ∀ (place : Nat) (e : Expr), exprAt place e.unplaced = exprAt place e
  | _, .missing | _, .var .. | _, .int .. | _, .bool .. | _, .ctor .. | _, .value _ | _, .within ..
  | _, .tying .. | _, .custom .. | _, .wrapped .. => rfl
  | place, .binary _ op l r => by
      rw [Expr.unplaced, exprAt, exprAt, exprAt_unplaced _ l, exprAt_unplaced _ r]
  | place, .app _ f [] => by
      rw [Expr.unplaced, Expr.unplacedAll, exprAt, exprAt, exprAt_unplaced place f]
  | place, .app _ f (a :: as) => by
      rw [Expr.unplaced, Expr.unplacedAll, exprAt, exprAt, exprAt_unplaced _ f, exprAt_unplaced _ a,
        args_unplaced as]
  | place, .annot _ e t => by
      rw [Expr.unplaced, exprAt, exprAt, exprAt_unplaced _ e, Ty.render_unplaced]
  | place, .fn _ x b => by
      rw [Expr.unplaced, exprAt, exprAt, exprAt_unplaced _ b]
  | place, .letIn _ x b e => by
      rw [Expr.unplaced, exprAt, exprAt, exprAt_unplaced _ b, exprAt_unplaced _ e]
  | place, .cond _ c t e => by
      rw [Expr.unplaced, exprAt, exprAt, exprAt_unplaced _ c, exprAt_unplaced _ t, exprAt_unplaced _ e]
  | place, .cases _ s alts => by
      rw [Expr.unplaced, exprAt, exprAt, exprAt_unplaced _ s, alternatives_unplaced alts]

theorem args_unplaced : ∀ es : List Expr, args (Expr.unplacedAll es) = args es
  | [] => rfl
  | e :: es => by rw [Expr.unplacedAll, args, args, exprAt_unplaced _ e, args_unplaced es]

theorem alternatives_unplaced : ∀ alts : List Alt, alternatives (Alt.unplacedAll alts) = alternatives alts
  | [] => rfl
  | .mk _ p e :: alts => by
      rw [Alt.unplacedAll, alternatives, alternatives, pattern, pattern, patternAt_unplaced,
        Alt.isEmpty_unplacedAll, exprAt_unplaced _ e, alternatives_unplaced alts]

end

end Layout

mutual

/-- A well-formed expression without its places is shown as itself, too. -/
theorem Expr.surface_unplaced {Γ : CtorTable} :
    ∀ {e : Expr}, e.isWellFormed Γ = true → e.unplaced.surface = e.unplaced
  | .int .., _ | .bool .., _ | .var .., _ | .ctor .., _ => rfl
  | .binary .., h => by
      simp only [Expr.isWellFormed, Bool.and_eq_true] at h
      rw [Expr.unplaced, Expr.surface, surface_unplaced h.1.2, surface_unplaced h.2]
  | .cond .., h => by
      simp only [Expr.isWellFormed, Bool.and_eq_true] at h
      rw [Expr.unplaced, Expr.surface, surface_unplaced h.1.1, surface_unplaced h.1.2,
        surface_unplaced h.2]
  | .fn .., h => by
      simp only [Expr.isWellFormed, Bool.and_eq_true] at h
      rw [Expr.unplaced, Expr.surface, surface_unplaced h.2]
  | .app .., h => by
      simp only [Expr.isWellFormed, Bool.and_eq_true] at h
      rw [Expr.unplaced, Expr.surface, surface_unplaced h.1.2, surfaceAll_unplaced h.2]
  | .letIn .., h => by
      simp only [Expr.isWellFormed, Bool.and_eq_true] at h
      rw [Expr.unplaced, Expr.surface, surface_unplaced h.1.2, surface_unplaced h.2]
  | .annot .., h => by
      simp only [Expr.isWellFormed, Bool.and_eq_true] at h
      rw [Expr.unplaced, Expr.surface, surface_unplaced h.1]
  | .cases .., h => by
      simp only [Expr.isWellFormed, Bool.and_eq_true] at h
      rw [Expr.unplaced, Expr.surface, surface_unplaced h.1.2, surfaceAlts_unplaced h.2]

theorem Expr.surfaceAll_unplaced {Γ : CtorTable} : ∀ {es : List Expr},
    Expr.areWellFormed Γ es = true → surfaceAll (Expr.unplacedAll es) = Expr.unplacedAll es
  | [], _ => rfl
  | e :: es, h => by
      simp only [Expr.areWellFormed, Bool.and_eq_true] at h
      rw [Expr.unplacedAll, surfaceAll, surface_unplaced h.1, surfaceAll_unplaced h.2]

theorem Expr.surfaceAlts_unplaced {Γ : CtorTable} : ∀ {alts : List Alt},
    Alt.areWellFormed Γ alts = true → surfaceAlts (Alt.unplacedAll alts) = Alt.unplacedAll alts
  | [], _ => rfl
  | .mk _ p e :: alts, h => by
      simp only [Alt.areWellFormed, Bool.and_eq_true] at h
      rw [Alt.unplacedAll, surfaceAlts, surface_unplaced h.1.2, surfaceAlts_unplaced h.2]

end

namespace Layout

variable {Γ : CtorTable}

theorem expr_unplaced {e : Expr} (h : e.isWellFormed Γ = true) : expr e.unplaced = expr e := by
  rw [expr, expr, Expr.surface_unplaced h, Expr.surface_eq h, exprAt_unplaced]

theorem alternativeLines_unplaced {alts : List Alt} (h : Alt.areWellFormed Γ alts = true) :
    alternativeLines (Alt.unplacedAll alts) = alternativeLines alts := by
  induction alts with
  | nil => rfl
  | cons a alts ih =>
      obtain ⟨p, q, e⟩ := a
      simp only [Alt.areWellFormed, Bool.and_eq_true] at h
      rw [Alt.unplacedAll, alternativeLines, alternativeLines, pattern, pattern, patternAt_unplaced,
        Alt.isEmpty_unplacedAll, Expr.surface_unplaced h.1.2, Expr.surface_eq h.1.2, exprAt_unplaced,
        ih h.2]

theorem body_unplaced : ∀ {e : Expr}, e.isWellFormed Γ = true → body e.unplaced = body e
  | .letIn _ x b e, h => by
      simp only [Expr.isWellFormed, Bool.and_eq_true] at h
      rw [Expr.unplaced, body, body, expr_unplaced h.1.2, body_unplaced h.2]
  | .cases _ s alts, h => by
      simp only [Expr.isWellFormed, Bool.and_eq_true] at h
      rw [Expr.unplaced, body, body, expr_unplaced h.1.2, alternativeLines_unplaced h.2]
  | .int .., h | .bool .., h | .var .., h | .ctor .., h | .binary .., h | .cond .., h | .fn .., h
  | .app .., h | .annot .., h => congrArg (· ++ "\n") (expr_unplaced h)

theorem constructor_unplaced (c : Constructor) : constructor c.unplaced = constructor c := by
  have hempty : (c.fields.map Ty.unplaced).isEmpty = c.fields.isEmpty := by simp
  rw [constructor, constructor, Constructor.unplaced, hempty, Ty.renderFields_unplaced]

theorem dataDecl_unplaced (d : DataDecl) : dataDecl d.unplaced = dataDecl d := by
  have hctors : constructor ∘ Constructor.unplaced = constructor := funext constructor_unplaced
  rw [dataDecl, dataDecl, DataDecl.unplaced, List.map_map, hctors]

theorem program_unplaced {p : Program} (h : p.IsWellFormedIn Γ) : program p.unplaced = program p := by
  have hdata : dataDecl ∘ DataDecl.unplaced = dataDecl := funext dataDecl_unplaced
  obtain ⟨imports, data, b⟩ := p
  obtain ⟨rfl, -, -, hbody⟩ := h
  have hb : (if b.unplaced.isMissing then "" else body b.unplaced)
      = if b.isMissing then "" else body b := by
    rcases hbody with rfl | hwf
    · rfl
    · have hmissing : b.unplaced.isMissing = b.isMissing := by cases b <;> rfl
      rw [hmissing, body_unplaced hwf]
  simp only [program, programWith, Program.unplaced, List.map_map, hdata, hb, List.map_nil]

end Layout

/-! ## What is read without an error -/

namespace Parser

variable {Γ : CtorTable} {source : List UInt8}

theorem ensures_soleExpr (T : Tolerance) (n : Nat) (s : State) : Ensures T (soleExpr n) s fun e _ =>
    8 * s.rest.length + 4 ≤ n →
      ∃ ts us o, s.rest = ts ++ us ∧ IsExpr s.ctors true ts e o := by
  unfold soleExpr
  refine (ensures_expr true n s).bind fun e s₁ => ?_
  refine (ensures_finish s₁).bind fun _ s₂ => ensures_pure ?_
  intro _ he hn
  obtain ⟨ts, hread, o, hexpr, -⟩ := he hn
  exact ⟨ts, s₁.rest, o, hread.rest, hexpr⟩

theorem isWellFormed_parseExpr (h : Diagnostic.hasErrors (parseExpr source Γ).2.diags = false) :
    (parseExpr source Γ).1.isWellFormed Γ = true := by
  obtain ⟨hconsistent, hensures⟩ :=
    ensures_soleExpr .none (depthFor (State.start source Γ).rest.length) (.start source Γ)
      (State.consistent_start .none source Γ)
  have hdiags := State.within_none_iff.mpr (hconsistent.diags_eq_nil h)
  obtain ⟨ts, us, o, hrest, hexpr⟩ := (hensures hdiags).2 (le_depthFor _)
  refine hexpr.isWellFormed fun t ht => ?_
  have hmem : t ∈ Lexer.tokenize source := by
    rw [show Lexer.tokenize source = ts ++ us from hrest]
    exact List.mem_append_left us ht
  exact Lexer.isProper_of_mem_tokenize hmem

theorem isWellFormedIn_parseProgram
    (h : Diagnostic.hasErrors (parseProgram source Γ).2.diags = false)
    (himports : (parseProgram source Γ).1.imports = []) :
    (parseProgram source Γ).1.IsWellFormedIn Γ :=
  (isProgram_parseProgram true (hasErrors_parseProgram_iff.mp h)).isWellFormedIn
    (fun _ => Lexer.isProper_of_mem_tokenize) himports

end Parser

/-! ## Laying out again -/

namespace Layout

open FunLang.Parser

variable {Γ : CtorTable}

/-- Trees that are the same up to places have the same text. -/
theorem expr_eq_of_unplaced {e e' : Expr} (h : e.isWellFormed Γ = true) (h' : e'.isWellFormed Γ = true)
    (heq : e'.unplaced = e.unplaced) : expr e' = expr e :=
  calc expr e' = expr e'.unplaced := (expr_unplaced h').symm
    _ = expr e.unplaced := by rw [heq]
    _ = expr e := expr_unplaced h

theorem program_eq_of_unplaced {p p' : Program} (h : p.IsWellFormedIn Γ) (h' : p'.IsWellFormedIn Γ)
    (heq : p'.unplaced = p.unplaced) : program p' = program p :=
  calc program p' = program p'.unplaced := (program_unplaced h').symm
    _ = program p.unplaced := by rw [heq]
    _ = program p := program_unplaced h

/-- The text of an expression is read without a message, gives the same expression up to places, and is
how that expression is laid out. -/
def IsStable (Γ : CtorTable) (e : Expr) : Prop :=
  (parseExpr (Text.encode (expr e)) Γ).2.diags = [] ∧
    (parseExpr (Text.encode (expr e)) Γ).1.unplaced = e.unplaced ∧
    expr (parseExpr (Text.encode (expr e)) Γ).1 = expr e

/-- The text of a program is read without a message, gives the same program up to places, and is how
that program is laid out. -/
def IsStableProgram (Γ : CtorTable) (p : Program) : Prop :=
  (parseProgram (Text.encode (program p)) Γ).2.diags = [] ∧
    (parseProgram (Text.encode (program p)) Γ).1.unplaced = p.unplaced ∧
    program (parseProgram (Text.encode (program p)) Γ).1 = program p

theorem isStable_of_isWellFormed {e : Expr} (h : e.isWellFormed Γ = true) : IsStable Γ e := by
  obtain ⟨hdiags, htree⟩ := parseExpr_expr h
  have haccepted : Diagnostic.hasErrors (parseExpr (Text.encode (expr e)) Γ).2.diags = false := by
    rw [hdiags]
    rfl
  exact ⟨hdiags, htree, expr_eq_of_unplaced h (isWellFormed_parseExpr haccepted) htree⟩

theorem isStableProgram_of_isWellFormedIn {p : Program} (h : p.IsWellFormedIn Γ) :
    IsStableProgram Γ p := by
  obtain ⟨hdiags, htree⟩ := parseProgram_program_in h
  have haccepted : Diagnostic.hasErrors (parseProgram (Text.encode (program p)) Γ).2.diags = false := by
    rw [hdiags]
    rfl
  have himports : (parseProgram (Text.encode (program p)) Γ).1.imports = [] := by
    have hunplaced := congrArg Program.imports htree
    simpa only [Program.unplaced, h.imports, List.map_nil, List.map_eq_nil_iff] using hunplaced
  have hp := isWellFormedIn_parseProgram haccepted himports
  exact ⟨hdiags, htree, program_eq_of_unplaced h hp htree⟩

/-- **Layout is canonical.** If a source text is read without an error as an expression, or as a program
without imports, what has been read is laid out in a text that is read again, with the same tree up to
places, and laying out that tree changes nothing. -/
theorem layout_canonical (Γ : CtorTable) (source : List UInt8) :
    (Diagnostic.hasErrors (parseExpr source Γ).2.diags = false → IsStable Γ (parseExpr source Γ).1) ∧
    (Diagnostic.hasErrors (parseProgram source Γ).2.diags = false →
      (parseProgram source Γ).1.imports = [] → IsStableProgram Γ (parseProgram source Γ).1) :=
  ⟨fun h => isStable_of_isWellFormed (isWellFormed_parseExpr h),
    fun h himports => isStableProgram_of_isWellFormedIn (isWellFormedIn_parseProgram h himports)⟩

/-- Comments, redundant parentheses, a bar before the first alternative, the word for functions and a
semicolon at the end; and a program that uses a constructor known from elsewhere next to its own. -/
theorem layout_canonical_spaced :
    let cons : Constructor :=
      ⟨"Cons", [.name .unknown "Int", .name .unknown "List"], "List", .unknown⟩
    let line := Text.encode "case (xs) of // all\n | Cons y (-1) -> (fun z -> ((y)) + z) ;"
    let lines := Text.encode "data T = A | B (T -> Int) List; let f = fun x -> (Cons (x)) in B (f) ;"
    (Diagnostic.hasErrors (parseExpr line [cons]).2.diags = false ∧
      IsStable [cons] (parseExpr line [cons]).1) ∧
    Diagnostic.hasErrors (parseProgram lines [cons]).2.diags = false ∧
      (parseProgram lines [cons]).1.imports = [] ∧
      IsStableProgram [cons] (parseProgram lines [cons]).1 := by
  intro cons line lines
  have hline : Diagnostic.hasErrors (parseExpr line [cons]).2.diags = false := by decide +kernel
  have hlines : Diagnostic.hasErrors (parseProgram lines [cons]).2.diags = false := by decide +kernel
  have himports : (parseProgram lines [cons]).1.imports = [] := by decide +kernel
  exact ⟨⟨hline, (layout_canonical [cons] line).1 hline⟩, hlines, himports,
    (layout_canonical [cons] lines).2 hlines himports⟩

end Layout

end FunLang
