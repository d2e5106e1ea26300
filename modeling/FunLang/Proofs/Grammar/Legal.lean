import FunLang.Proofs.Grammar.Lines

set_option autoImplicit false

/-!
# Illegal tokens

What the lexer cannot read becomes a token of its own, an illegal one. No phrase of the grammar has such a
token in it, so that nothing that comes after an illegal token makes a line of it.
-/

namespace FunLang.Grammar

/-- None of the tokens is an illegal one. -/
def Legal (ts : List Token) : Prop := ∀ t ∈ ts, t.kind ≠ .illegal

@[simp] theorem legal_nil : Legal [] := by simp [Legal]

@[simp] theorem legal_cons_iff {t : Token} {ts : List Token} :
    Legal (t :: ts) ↔ t.kind ≠ .illegal ∧ Legal ts := by
  simp [Legal]

@[simp] theorem legal_append_iff {ts us : List Token} : Legal (ts ++ us) ↔ Legal ts ∧ Legal us := by
  simp [Legal, or_imp, forall_and]

/-! ## Types and patterns -/

mutual

theorem IsType.legal : ∀ {ts : List Token} {t : Ty}, IsType ts t → Legal ts
  | _, _, .atomic h => h.legal
  | _, _, .arrow h ha hu => by simp [ha, h.legal, hu.legal]

theorem IsAtomicType.legal : ∀ {ts : List Token} {t : Ty}, IsAtomicType ts t → Legal ts
  | _, _, .name ht => by rcases ht.eq_or with h | h | h <;> simp [h]
  | _, _, .paren hl h hr => by simp [hl, hr, h.legal]

end

theorem AreAtomicTypes.legal {ts : List Token} {tys : List Ty} (h : AreAtomicTypes ts tys) : Legal ts := by
  induction h with
  | nil => exact legal_nil
  | cons h _ ih => simp [h.legal, ih]

section Patterns

variable {Γ : CtorTable}

mutual

theorem IsPattern.legal : ∀ {ts : List Token} {p : Pattern}, IsPattern Γ ts p → Legal ts
  | _, _, .ctor ht hs => by simp [ht.1, hs.legal]
  | _, _, .atomic h => h.legal

theorem IsAtomicPattern.legal : ∀ {ts : List Token} {p : Pattern}, IsAtomicPattern Γ ts p → Legal ts
  | _, _, .int ht => by simp [ht.1]
  | _, _, .negated hm ht => by simp [hm, ht.1]
  | _, _, .true ht => by simp [ht]
  | _, _, .false ht => by simp [ht]
  | _, _, .var ht => by simp [ht.1]
  | _, _, .ctor ht => by simp [ht.1]
  | _, _, .paren hl h hr => by simp [hl, hr, h.legal]

theorem AreAtomicPatterns.legal : ∀ {ts : List Token} {ps : List Pattern}, AreAtomicPatterns Γ ts ps →
    Legal ts
  | _, _, .nil => legal_nil
  | _, _, .cons h hs => by simp [h.legal, hs.legal]

end

end Patterns

/-! ## Expressions -/

section Exprs

variable {Γ : CtorTable} {innermost : Bool}

theorem IsOperator.ne_illegal {k : Nat} {kind : TokenKind} {op : BinOp} (h : IsOperator k kind op) :
    kind ≠ .illegal := by
  cases h <;> simp

theorem IsOptionalBar.legal {ts : List Token} (h : IsOptionalBar ts) : Legal ts := by
  cases h with
  | none => exact legal_nil
  | bar hb => simp [hb]

mutual

theorem IsExpr.legal : ∀ {ts : List Token} {e : Expr} {o : Bool}, IsExpr Γ innermost ts e o → Legal ts
  | _, _, _, .letIn hl hx ha hbound hi hbody => by simp [hl, hx.1, ha, hi, hbound.legal, hbody.legal]
  | _, _, _, .fn hf hx ha hbody => by rcases hf.eq_or with h | h <;> simp [h, hx.1, ha, hbody.legal]
  | _, _, _, .cond hi htest ht hyes he hno => by simp [hi, ht, he, htest.legal, hyes.legal, hno.legal]
  | _, _, _, .cases hc hs hf hb halts => by simp [hc, hf, hs.legal, hb.legal, halts.legal]
  | _, _, _, .binary h => h.legal

theorem AreAlts.legal : ∀ {ts : List Token} {alts : List Alt}, AreAlts Γ innermost ts alts → Legal ts
  | _, _, .one hp ha hbody => by
      have hp := legal_cons_iff.mp hp.legal
      simp [hp, ha, hbody.legal]
  | _, _, .cons hp ha hbody _ hb halts => by
      have hp := legal_cons_iff.mp hp.legal
      simp [hp, ha, hb, hbody.legal, halts.legal]

theorem IsBinary.legal : ∀ {k : Nat} {ts : List Token} {e : Expr}, IsBinary Γ innermost k ts e → Legal ts
  | _, _, _, .op hl ho hr => by simp [ho.ne_illegal, hl.legal, hr.legal]
  | _, _, _, .tighter h => h.legal
  | _, _, _, .application h => h.legal

theorem IsApplication.legal : ∀ {ts : List Token} {e : Expr}, IsApplication Γ innermost ts e → Legal ts
  | _, _, .head h => h.legal
  | _, _, .app hf has => by simp [hf.legal, has.legal]

theorem IsHead.legal : ∀ {ts : List Token} {e : Expr}, IsHead Γ innermost ts e → Legal ts
  | _, _, .atom h => h.legal
  | _, _, .negated hm ht => by simp [hm, ht.1]

theorem AreAtoms.legal : ∀ {ts : List Token} {as : List Expr}, AreAtoms Γ innermost ts as → Legal ts
  | _, _, .nil => legal_nil
  | _, _, .cons h hs => by simp [h.legal, hs.legal]

theorem IsAtom.legal : ∀ {ts : List Token} {e : Expr}, IsAtom Γ innermost ts e → Legal ts
  | _, _, .int ht => by simp [ht.1]
  | _, _, .true ht => by simp [ht]
  | _, _, .false ht => by simp [ht]
  | _, _, .var ht => by simp [ht.1]
  | _, _, .ctor ht => by simp [ht.1]
  | _, _, .paren hl h hr => by simp [hl, hr, h.legal]
  | _, _, .annot hl h hc ht hr => by simp [hl, hc, hr, h.legal, ht.legal]

end

end Exprs

/-! ## Lines -/

theorem AreConstructors.legal {type : String} {Γ Γ' : CtorTable} {ts : List Token} {cs : List Constructor}
    (h : AreConstructors type Γ ts cs Γ') : Legal ts := by
  induction h with
  | one hx h => simp [hx.1, h.legal]
  | cons hx h hb _ ih => simp [hx.1, hb, h.legal, ih]

theorem AreData.legal {Γ Γ' : CtorTable} {ts : List Token} {ds : List DataDecl} (h : AreData Γ ts ds Γ') :
    Legal ts := by
  induction h with
  | nil => exact legal_nil
  | cons h _ ih =>
      obtain ⟨hd, hx, ha, hcs, he⟩ := h
      simp [hd, hx, ha, he, hcs.legal, ih]

section Lines

variable {Γ : CtorTable} {innermost : Bool} {ts : List Token} {name : Option String} {e : Expr}

theorem IsEntry.legal (h : IsEntry Γ innermost ts name e) : Legal ts := by
  cases h with
  | define hl hx ha h => simp [hl, hx.1, ha, h.legal]
  | expr h => exact h.legal

/-- A line of the grammar has no illegal token. -/
theorem IsLine.legal {l : Parser.Line} (h : IsLine Γ innermost ts l) : Legal ts := by
  obtain ⟨hds, he, hz⟩ := h
  cases he with
  | missing => simp [hds.legal, hz]
  | entry h => simp [hds.legal, h.legal, hz]
  | terminated h hs => simp [hds.legal, h.legal, hs, hz]

end Lines

end FunLang.Grammar
