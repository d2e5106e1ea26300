import FunLang.Parser.Exprs
import FunLang.Proofs.Grammar

set_option autoImplicit false

/-!
# How phrases start

Every phrase of the grammar but a sequence starts with a token of its own kind. A parser that looks at
the next token can therefore tell whether a phrase follows.
-/

namespace FunLang.Grammar

open FunLang.Parser (startsAtomicType startsPattern startsAtom level)

/-- A sequence of tokens whose first one has the property `P`. -/
def StartsWith (P : TokenKind → Bool) (ts : List Token) : Prop := ∃ t us, ts = t :: us ∧ P t.kind = true

theorem StartsWith.length_pos {P : TokenKind → Bool} {ts : List Token} (h : StartsWith P ts) :
    0 < ts.length := by
  obtain ⟨t, us, rfl, -⟩ := h
  simp

theorem StartsWith.append {P : TokenKind → Bool} {ts : List Token} (h : StartsWith P ts)
    (us : List Token) : StartsWith P (ts ++ us) := by
  obtain ⟨t, ts', rfl, ht⟩ := h
  exact ⟨t, ts' ++ us, rfl, ht⟩

theorem StartsWith.mono {P P' : TokenKind → Bool} (hP : ∀ k, P k = true → P' k = true)
    {ts : List Token} (h : StartsWith P ts) : StartsWith P' ts := by
  obtain ⟨t, us, rfl, ht⟩ := h
  exact ⟨t, us, rfl, hP _ ht⟩

/-- The kind of the first of some tokens, or of the end of the input if there are none. -/
def nextKind (ts : List Token) : TokenKind := (ts.headD (.endAt .unknown)).kind

@[simp] theorem nextKind_cons (t : Token) (ts : List Token) : nextKind (t :: ts) = t.kind := rfl

theorem StartsWith.nextKind {P : TokenKind → Bool} {ts : List Token} (h : StartsWith P ts)
    (rest : List Token) : P (nextKind (ts ++ rest)) = true := by
  obtain ⟨t, us, rfl, ht⟩ := h
  exact ht

theorem StartsWith.nextKind_ne {P : TokenKind → Bool} {ts : List Token} (h : StartsWith P ts)
    {k : TokenKind} (hk : P k = false) (rest : List Token) : Grammar.nextKind (ts ++ rest) ≠ k := by
  rintro rfl
  simp [h.nextKind rest] at hk

/-! ## Types and patterns -/

theorem NamesType.starts {k : TokenKind} (h : NamesType k) : startsAtomicType k = true := by
  cases h <;> rfl

theorem NamesType.eq_or {k : TokenKind} (h : NamesType k) : k = .intType ∨ k = .boolType ∨ k = .ident := by
  cases h <;> simp

theorem IsAtomicType.starts {ts : List Token} {t : Ty} (h : IsAtomicType ts t) :
    StartsWith startsAtomicType ts := by
  cases h with
  | name ht => exact ⟨_, [], rfl, ht.starts⟩
  | paren hl _ _ => exact ⟨_, _, rfl, by simp [hl, startsAtomicType]⟩

variable {Γ : CtorTable} {innermost : Bool}

theorem IsAtomicPattern.starts {ts : List Token} {p : Pattern} (h : IsAtomicPattern Γ ts p) :
    StartsWith startsPattern ts := by
  cases h with
  | int ht => exact ⟨_, _, rfl, by simp [ht.1, startsPattern]⟩
  | negated hm _ => exact ⟨_, _, rfl, by simp [hm, startsPattern]⟩
  | true ht => exact ⟨_, _, rfl, by simp [ht, startsPattern]⟩
  | false ht => exact ⟨_, _, rfl, by simp [ht, startsPattern]⟩
  | var ht => exact ⟨_, _, rfl, by simp [ht.1, startsPattern]⟩
  | ctor ht => exact ⟨_, _, rfl, by simp [ht.1, startsPattern]⟩
  | paren hl _ _ => exact ⟨_, _, rfl, by simp [hl, startsPattern]⟩

/-- The only atomic pattern that starts with a constructor is that constructor by itself. -/
theorem IsAtomicPattern.of_constructor {t : Token} {us : List Token} {p : Pattern} {c : Constructor}
    (h : IsAtomicPattern Γ (t :: us) p) (ht : IsConstructor Γ t c) :
    us = [] ∧ p = .ctor t.pos c [] := by
  obtain ⟨hk, hfind⟩ := ht
  cases h with
  | int h => simp [h.1] at hk
  | negated h _ => simp [h] at hk
  | true h => simp [h] at hk
  | false h => simp [h] at hk
  | var h => simp [h.2] at hfind
  | ctor h =>
      simp only [h.2, Option.some.injEq] at hfind
      exact ⟨rfl, by rw [hfind]⟩
  | paren h _ _ => simp [h] at hk

theorem IsPattern.starts {ts : List Token} {p : Pattern} (h : IsPattern Γ ts p) :
    StartsWith startsPattern ts := by
  cases h with
  | ctor ht _ => exact ⟨_, _, rfl, by simp [ht.1, startsPattern]⟩
  | atomic h => exact h.starts

/-! ## Operators -/

theorem IsOperator.level_eq {k : Nat} {kind : TokenKind} {op : BinOp} (h : IsOperator k kind op) :
    level kind = k := by
  cases h <;> rfl

theorem IsOperator.ofKind_eq {k : Nat} {kind : TokenKind} {op : BinOp} (h : IsOperator k kind op) :
    BinOp.ofKind kind = op := by
  cases h <;> rfl

theorem IsOperator.pos {k : Nat} {kind : TokenKind} {op : BinOp} (h : IsOperator k kind op) :
    0 < k := by
  cases h <;> simp

theorem IsOperator.not_startsAtom {k : Nat} {kind : TokenKind} {op : BinOp}
    (h : IsOperator k kind op) : startsAtom kind = false := by
  cases h <;> rfl

/-! ## Expressions -/

/-- Whether a token can start an operand. -/
def startsOperand (k : TokenKind) : Bool := startsAtom k || k == .minus

/-- Whether a token can start an expression. -/
def startsExpr : TokenKind → Bool
  | .kwLet | .lambda | .kwFun | .kwIf | .kwCase => true
  | k => startsOperand k

theorem IsAtom.starts {ts : List Token} {e : Expr} (h : IsAtom Γ innermost ts e) :
    StartsWith startsAtom ts := by
  cases h with
  | int ht => exact ⟨_, _, rfl, by simp [ht.1, startsAtom]⟩
  | true ht => exact ⟨_, _, rfl, by simp [ht, startsAtom]⟩
  | false ht => exact ⟨_, _, rfl, by simp [ht, startsAtom]⟩
  | var ht => exact ⟨_, _, rfl, by simp [ht.1, startsAtom]⟩
  | ctor ht => exact ⟨_, _, rfl, by simp [ht.1, startsAtom]⟩
  | paren hl _ _ => exact ⟨_, _, rfl, by simp [hl, startsAtom]⟩
  | annot hl _ _ _ _ => exact ⟨_, _, rfl, by simp [hl, startsAtom]⟩

theorem AreAtoms.starts {ts : List Token} {a : Expr} {as : List Expr}
    (h : AreAtoms Γ innermost ts (a :: as)) : StartsWith startsAtom ts := by
  cases h with
  | cons h _ => exact h.starts.append _

theorem IsHead.starts {ts : List Token} {e : Expr} (h : IsHead Γ innermost ts e) :
    StartsWith startsOperand ts := by
  cases h with
  | atom h => exact h.starts.mono fun k hk => by simp [startsOperand, hk]
  | negated hm _ => exact ⟨_, _, rfl, by simp [hm, startsOperand]⟩

/-- A head that starts like an atom is one. -/
theorem IsHead.isAtom {t : Token} {ts : List Token} {e : Expr} (h : IsHead Γ innermost (t :: ts) e)
    (ht : startsAtom t.kind = true) : IsAtom Γ innermost (t :: ts) e := by
  cases h with
  | atom h => exact h
  | negated hm _ => simp [hm, startsAtom] at ht

theorem IsApplication.starts {ts : List Token} {e : Expr} (h : IsApplication Γ innermost ts e) :
    StartsWith startsOperand ts := by
  cases h with
  | head h => exact h.starts
  | app hf _ => exact hf.starts.append _

theorem IsBinary.starts : ∀ {k : Nat} {ts : List Token} {e : Expr}, IsBinary Γ innermost k ts e →
    StartsWith startsOperand ts
  | _, _, _, .op hl _ _ => (IsBinary.starts hl).append _
  | _, _, _, .tighter h => IsBinary.starts h
  | _, _, _, .application h => h.starts

theorem StartsFunction.starts {k : TokenKind} (h : StartsFunction k) : startsExpr k = true := by
  cases h <;> rfl

theorem StartsFunction.eq_or {k : TokenKind} (h : StartsFunction k) : k = .lambda ∨ k = .kwFun := by
  cases h <;> simp

theorem StartsFunction.ne_eof {k : TokenKind} (h : StartsFunction k) : k ≠ .eof := by
  cases h <;> simp

theorem IsExpr.starts {ts : List Token} {e : Expr} {o : Bool} (h : IsExpr Γ innermost ts e o) :
    StartsWith startsExpr ts := by
  cases h with
  | letIn hl _ _ _ _ _ => exact ⟨_, _, rfl, by simp [hl, startsExpr]⟩
  | fn hf _ _ _ => exact ⟨_, _, rfl, hf.starts⟩
  | cond hi _ _ _ _ _ => exact ⟨_, _, rfl, by simp [hi, startsExpr]⟩
  | cases hc _ _ _ _ => exact ⟨_, _, rfl, by simp [hc, startsExpr]⟩
  | binary h =>
      refine h.starts.mono fun k hk => ?_
      unfold startsExpr
      split <;> simp [hk]

theorem AreAlts.starts {ts : List Token} {alts : List Alt} (h : AreAlts Γ innermost ts alts) :
    StartsWith startsPattern ts := by
  cases h with
  | one hp _ _ => exact hp.starts.append _
  | cons hp _ _ _ _ _ => exact hp.starts.append _

/-! ## Declarations -/

theorem IsImport.starts {ts : List Token} {i : Import} (h : IsImport ts i) :
    StartsWith (· == .kwImport) ts := by
  obtain ⟨hi, -, -, -⟩ := h
  exact ⟨_, _, rfl, by simp [hi]⟩

theorem IsData.starts {Γ Γ' : CtorTable} {ts : List Token} {d : DataDecl} (h : IsData Γ ts d Γ') :
    StartsWith (· == .kwData) ts := by
  obtain ⟨hd, -, -, -, -⟩ := h
  exact ⟨_, _, rfl, by simp [hd]⟩

theorem AreData.nextKind_ne {Γ Γ' : CtorTable} {ts rest : List Token} {ds : List DataDecl}
    (h : AreData Γ ts ds Γ') (hrest : nextKind rest ≠ .kwImport) : nextKind (ts ++ rest) ≠ .kwImport := by
  cases h with
  | nil => exact hrest
  | cons h _ =>
      rw [List.append_assoc]
      exact h.starts.nextKind_ne rfl _

/-- The body of a program starts with no declaration. -/
theorem IsBody.nextKind_ne {vs : List Token} {e : Expr} {z : Token} (h : IsBody Γ innermost vs e)
    (hz : z.kind = .eof) : nextKind (vs ++ [z]) ≠ .kwData ∧ nextKind (vs ++ [z]) ≠ .kwImport := by
  cases h with
  | missing => simp [hz]
  | expr h => exact ⟨h.starts.nextKind_ne rfl _, h.starts.nextKind_ne rfl _⟩
  | terminated h _ =>
      rw [List.append_assoc]
      exact ⟨h.starts.nextKind_ne rfl _, h.starts.nextKind_ne rfl _⟩

end FunLang.Grammar
