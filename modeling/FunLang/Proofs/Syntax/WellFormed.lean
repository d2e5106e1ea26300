import FunLang.Proofs.Syntax.Tables
import FunLang.Proofs.Token.Spelling
import FunLang.Syntax.Surface

set_option autoImplicit false

/-!
# Well-formed trees

A tree is well-formed if it has the forms of source text only, with nothing missing, and if its
names are such that they can be written: every name is a word that is not reserved, the names of
variables are not those of constructors, and a constructor is the one that the table knows by its name.
-/

namespace FunLang

/-- A word that is not reserved. -/
def isName (x : String) : Bool := Lexer.isWord x && !TokenKind.isKeyword x

theorem TokenKind.ofWord_of_isName {x : String} (h : isName x = true) :
    TokenKind.ofWord x = .ident := by
  simp only [isName, TokenKind.isKeyword, Bool.and_eq_true, Bool.not_eq_true',
    Option.isSome_eq_false_iff, Option.isNone_iff_eq_none] at h
  rw [TokenKind.ofWord, h.2]
  rfl

/-- A type of names, where also the two types of the language have theirs. -/
def Ty.isWellFormed : Ty → Bool
  | .missing => false
  | .name _ n => isName n || n == "Int" || n == "Bool"
  | .arrow _ t u => t.isWellFormed && u.isWellFormed

section Tables

variable (Γ : CtorTable)

/-- A name that may be bound. -/
def isBinder (x : String) : Bool := isName x && !Γ.contains x

/-- A constructor of the table whose name can be written. -/
def Constructor.isKnown (c : Constructor) : Bool := isName c.name && Γ.find? c.name == some c

mutual

def Pattern.isWellFormed : Pattern → Bool
  | .missing => false
  | .int .. | .bool .. => true
  | .var _ x => isBinder Γ x
  | .ctor _ c ps => c.isKnown Γ && Pattern.areWellFormed ps

def Pattern.areWellFormed : List Pattern → Bool
  | [] => true
  | p :: ps => p.isWellFormed && Pattern.areWellFormed ps

end

mutual

def Expr.isWellFormed : Expr → Bool
  | .int .. | .bool .. => true
  | .var _ x => isBinder Γ x
  | .ctor _ c => c.isKnown Γ
  | .binary _ op l r => op != .unknown && l.isWellFormed && r.isWellFormed
  | .cond _ c t e => c.isWellFormed && t.isWellFormed && e.isWellFormed
  | .fn _ x body => isBinder Γ x && body.isWellFormed
  | .app _ f args => !args.isEmpty && f.isWellFormed && Expr.areWellFormed args
  | .letIn _ x bound body => isBinder Γ x && bound.isWellFormed && body.isWellFormed
  | .annot _ e t => e.isWellFormed && t.isWellFormed
  | .cases _ s alts => !alts.isEmpty && s.isWellFormed && Alt.areWellFormed alts
  | .missing | .value _ | .within .. | .tying .. | .custom .. | .wrapped .. => false

def Expr.areWellFormed : List Expr → Bool
  | [] => true
  | e :: es => e.isWellFormed && Expr.areWellFormed es

def Alt.areWellFormed : List Alt → Bool
  | [] => true
  | .mk _ p e :: alts => p.isWellFormed Γ && e.isWellFormed && Alt.areWellFormed alts

end

end Tables

/-- A declaration of at least one constructor, all of them of the type that is declared. -/
def DataDecl.isWellFormed (d : DataDecl) : Bool :=
  isName d.name && !d.ctors.isEmpty && d.ctors.all fun c =>
    isName c.name && c.fields.all Ty.isWellFormed && c.type == d.name

/-- A program without imports whose constructors have different names. The body may be missing. -/
def Program.isWellFormed (p : Program) : Bool :=
  p.imports.isEmpty && p.data.all DataDecl.isWellFormed &&
    decide (p.ctors.map Constructor.name).Nodup &&
    (p.body.isMissing || p.body.isWellFormed (CtorTable.ofList p.ctors))

/-- A program without imports next to constructors that are known from elsewhere. -/
structure Program.IsWellFormedIn (Γ : CtorTable) (p : Program) : Prop where
  imports : p.imports = []
  data : p.data.all DataDecl.isWellFormed = true
  new : Γ.New (p.ctors.map Constructor.name)
  body : p.body = .missing ∨ p.body.isWellFormed (p.ctors.reverse ++ Γ) = true

theorem Program.isWellFormedIn_nil {p : Program} (h : p.isWellFormed = true) : p.IsWellFormedIn [] := by
  simp only [Program.isWellFormed, Bool.and_eq_true, decide_eq_true_eq, Bool.or_eq_true] at h
  obtain ⟨⟨⟨himports, hdata⟩, hnodup⟩, hbody⟩ := h
  refine ⟨by simpa using himports, hdata, ⟨hnodup, by simp⟩, ?_⟩
  rcases hbody with hmissing | hbody
  · left
    cases hb : p.body <;> simp_all [Expr.isMissing]
  · right
    rwa [CtorTable.ofList_eq_reverse, ← List.append_nil p.ctors.reverse] at hbody

/-! ## Surfaces -/

mutual

/-- A well-formed expression is shown as itself. -/
theorem Expr.surface_eq {Γ : CtorTable} : ∀ {e : Expr}, e.isWellFormed Γ = true → e.surface = e
  | .int .., _ | .bool .., _ | .var .., _ | .ctor .., _ => rfl
  | .binary _ op l r, h => by
      simp only [Expr.isWellFormed, Bool.and_eq_true] at h
      rw [Expr.surface, surface_eq h.1.2, surface_eq h.2]
  | .cond _ c t e, h => by
      simp only [Expr.isWellFormed, Bool.and_eq_true] at h
      rw [Expr.surface, surface_eq h.1.1, surface_eq h.1.2, surface_eq h.2]
  | .fn _ x body, h => by
      simp only [Expr.isWellFormed, Bool.and_eq_true] at h
      rw [Expr.surface, surface_eq h.2]
  | .app _ f args, h => by
      simp only [Expr.isWellFormed, Bool.and_eq_true] at h
      rw [Expr.surface, surface_eq h.1.2, surfaceAll_eq h.2]
  | .letIn _ x bound body, h => by
      simp only [Expr.isWellFormed, Bool.and_eq_true] at h
      rw [Expr.surface, surface_eq h.1.2, surface_eq h.2]
  | .annot _ e t, h => by
      simp only [Expr.isWellFormed, Bool.and_eq_true] at h
      rw [Expr.surface, surface_eq h.1]
  | .cases _ s alts, h => by
      simp only [Expr.isWellFormed, Bool.and_eq_true] at h
      rw [Expr.surface, surface_eq h.1.2, surfaceAlts_eq h.2]

theorem Expr.surfaceAll_eq {Γ : CtorTable} :
    ∀ {es : List Expr}, Expr.areWellFormed Γ es = true → surfaceAll es = es
  | [], _ => rfl
  | e :: es, h => by
      simp only [Expr.areWellFormed, Bool.and_eq_true] at h
      rw [surfaceAll, surface_eq h.1, surfaceAll_eq h.2]

theorem Expr.surfaceAlts_eq {Γ : CtorTable} :
    ∀ {alts : List Alt}, Alt.areWellFormed Γ alts = true → surfaceAlts alts = alts
  | [], _ => rfl
  | .mk _ p e :: alts, h => by
      simp only [Alt.areWellFormed, Bool.and_eq_true] at h
      rw [surfaceAlts, surface_eq h.1.2, surfaceAlts_eq h.2]

end

end FunLang
