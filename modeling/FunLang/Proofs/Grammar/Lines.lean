import FunLang.Parser.Programs
import FunLang.Proofs.Grammar.Innermost
import FunLang.Proofs.Grammar.Starts

set_option autoImplicit false

/-!
# The grammar of interactive lines

    line  ::= { data NAME = ctor { | ctor } ; } [ entry [ ; ] ] EOF
    entry ::= let NAME = expr | expr

A line has no imports. What stands behind its data may be a definition, and a `let` without its `in` is
one. A `let` with its `in` is an expression, so that what a `let` is shows only behind its bound
expression.
-/

namespace FunLang.Grammar

section Entries

variable (Γ : CtorTable) (innermost : Bool)

/-- A definition, with its name, or an expression, without one. -/
inductive IsEntry : List Token → Option String → Expr → Prop where
  | define {l x a : Token} {ts : List Token} {bound : Expr} {o : Bool} (hl : l.kind = .kwLet)
      (hx : IsVariable Γ x) (ha : a.kind = .assign) (hbound : IsExpr Γ innermost ts bound o) :
      IsEntry (l :: x :: a :: ts) (some x.text) bound
  | expr {ts : List Token} {e : Expr} {o : Bool} (h : IsExpr Γ innermost ts e o) : IsEntry ts none e

/-- What stands behind the data of a line, which may be nothing. -/
inductive IsContent : List Token → Option String → Expr → Prop where
  | missing : IsContent [] none .missing
  | entry {ts : List Token} {name : Option String} {e : Expr} (h : IsEntry Γ innermost ts name e) :
      IsContent ts name e
  | terminated {ts : List Token} {s : Token} {name : Option String} {e : Expr}
      (h : IsEntry Γ innermost ts name e) (hs : s.kind = .semicolon) : IsContent (ts ++ [s]) name e

/-- An interactive line, read with the constructors of `Γ` known from the lines before it. -/
inductive IsLine : List Token → Parser.Line → Prop where
  | mk {Γ' : CtorTable} {ts us : List Token} {z : Token} {ds : List DataDecl} {name : Option String}
      {e : Expr} (hds : AreData Γ ts ds Γ') (he : IsContent Γ' innermost us name e)
      (hz : z.kind = .eof) : IsLine (ts ++ (us ++ [z])) ⟨ds, name, e⟩

end Entries

variable {Γ : CtorTable} {ts : List Token} {name : Option String} {e : Expr}

/-! ## How entries start -/

section Starts

variable {innermost : Bool}

theorem IsEntry.starts (h : IsEntry Γ innermost ts name e) : StartsWith startsExpr ts := by
  cases h with
  | define hl _ _ _ => exact ⟨_, _, rfl, by simp [hl, startsExpr]⟩
  | expr h => exact h.starts

end Starts

/-! ## Innermost readings -/

theorem IsEntry.innermost (h : IsEntry Γ false ts name e) : ∃ e', IsEntry Γ true ts name e' := by
  cases h with
  | define hl hx ha h =>
      obtain ⟨_, h⟩ := h.innermost
      exact ⟨_, .define hl hx ha h⟩
  | expr h =>
      obtain ⟨_, h⟩ := h.innermost
      exact ⟨_, .expr h⟩

/-- A sequence of tokens that has a reading as a line has an innermost one. -/
theorem IsLine.innermost {l : Parser.Line} (h : IsLine Γ false ts l) : ∃ l', IsLine Γ true ts l' := by
  obtain ⟨hds, he, hz⟩ := h
  cases he with
  | missing => exact ⟨_, .mk hds .missing hz⟩
  | entry h =>
      obtain ⟨_, h⟩ := h.innermost
      exact ⟨_, .mk hds (.entry h) hz⟩
  | terminated h hs =>
      obtain ⟨_, h⟩ := h.innermost
      exact ⟨_, .mk hds (.terminated h hs) hz⟩

end FunLang.Grammar
