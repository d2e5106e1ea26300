import FunLang.Proofs.Grammar

set_option autoImplicit false

/-!
# Alternatives belong to the innermost case

The rule that every alternative belongs to the innermost `case` that is open loses no sentence: what
has any reading has one that obeys the rule (`IsProgram.innermost`). Behind a body that ends with an
open `case`, the alternatives that follow can be moved into that `case` (`IsExpr.attach`).
-/

namespace FunLang.Grammar

variable {Γ : CtorTable}

section Attach

variable {vs : List Token} {more : List Alt} {b : Token}

mutual

/-- An expression that ends with an open `case` takes further alternatives. -/
theorem IsExpr.attach (hb : b.kind = .bar) (hmore : AreAlts Γ true vs more) :
    ∀ {ts : List Token} {e : Expr} {o : Bool}, IsExpr Γ true ts e o → o = true →
      ∃ e', IsExpr Γ true (ts ++ b :: vs) e' true
  | _, _, _, .letIn hl hx ha hbound hi hbody, ho => by
      obtain ⟨e', he'⟩ := IsExpr.attach hb hmore hbody ho
      have h := IsExpr.letIn hl hx ha hbound hi he'
      exact ⟨_, by simpa using h⟩
  | _, _, _, .fn hf hx ha hbody, ho => by
      obtain ⟨e', he'⟩ := IsExpr.attach hb hmore hbody ho
      exact ⟨_, IsExpr.fn hf hx ha he'⟩
  | _, _, _, .cond hi htest ht hyes he hno, ho => by
      obtain ⟨e', he'⟩ := IsExpr.attach hb hmore hno ho
      have h := IsExpr.cond hi htest ht hyes he he'
      exact ⟨_, by simpa using h⟩
  | _, _, _, .cases hc hs hf hbs halts, _ => by
      obtain ⟨alts', halts'⟩ := AreAlts.attach hb hmore halts
      have h := IsExpr.cases hc hs hf hbs halts'
      exact ⟨_, by simpa using h⟩
  | _, _, _, .binary _, ho => by simp at ho

/-- So do the alternatives of a `case`. -/
theorem AreAlts.attach (hb : b.kind = .bar) (hmore : AreAlts Γ true vs more) :
    ∀ {ts : List Token} {alts : List Alt}, AreAlts Γ true ts alts →
      ∃ alts', AreAlts Γ true (ts ++ b :: vs) alts'
  | _, _, .one (o := o) hp ha hbody => by
      cases o with
      | false =>
          have h := AreAlts.cons hp ha hbody (fun _ => rfl) hb hmore
          exact ⟨_, by simpa using h⟩
      | true =>
          obtain ⟨e', he'⟩ := IsExpr.attach hb hmore hbody rfl
          have h := AreAlts.one hp ha he'
          exact ⟨_, by simpa using h⟩
  | _, _, .cons hp ha hbody ho hb' halts => by
      obtain ⟨alts', halts'⟩ := AreAlts.attach hb hmore halts
      have h := AreAlts.cons hp ha hbody ho hb' halts'
      exact ⟨_, by simpa using h⟩

end

end Attach

/-! ## Every sentence has an innermost reading -/

mutual

theorem IsExpr.innermost : ∀ {ts : List Token} {e : Expr} {o : Bool}, IsExpr Γ false ts e o →
    ∃ e', IsExpr Γ true ts e' o
  | _, _, _, .letIn hl hx ha hbound hi hbody => by
      obtain ⟨_, hbound⟩ := IsExpr.innermost hbound
      obtain ⟨_, hbody⟩ := IsExpr.innermost hbody
      exact ⟨_, .letIn hl hx ha hbound hi hbody⟩
  | _, _, _, .fn hf hx ha hbody => by
      obtain ⟨_, hbody⟩ := IsExpr.innermost hbody
      exact ⟨_, .fn hf hx ha hbody⟩
  | _, _, _, .cond hi htest ht hyes he hno => by
      obtain ⟨_, htest⟩ := IsExpr.innermost htest
      obtain ⟨_, hyes⟩ := IsExpr.innermost hyes
      obtain ⟨_, hno⟩ := IsExpr.innermost hno
      exact ⟨_, .cond hi htest ht hyes he hno⟩
  | _, _, _, .cases hc hs hf hbs halts => by
      obtain ⟨_, hs⟩ := IsExpr.innermost hs
      obtain ⟨_, halts⟩ := AreAlts.innermost halts
      exact ⟨_, .cases hc hs hf hbs halts⟩
  | _, _, _, .binary h => by
      obtain ⟨_, h⟩ := IsBinary.innermost h
      exact ⟨_, .binary h⟩

theorem AreAlts.innermost : ∀ {ts : List Token} {alts : List Alt}, AreAlts Γ false ts alts →
    ∃ alts', AreAlts Γ true ts alts'
  | _, _, .one hp ha hbody => by
      obtain ⟨_, hbody⟩ := IsExpr.innermost hbody
      exact ⟨_, .one hp ha hbody⟩
  | _, _, .cons (o := o) hp ha hbody _ hb halts => by
      obtain ⟨_, hbody⟩ := IsExpr.innermost hbody
      obtain ⟨_, halts⟩ := AreAlts.innermost halts
      cases o with
      | false => exact ⟨_, .cons hp ha hbody (fun _ => rfl) hb halts⟩
      | true =>
          -- the alternatives that follow go to the `case` that the body ends with
          obtain ⟨_, hbody⟩ := hbody.attach hb halts rfl
          exact ⟨_, .one hp ha hbody⟩

theorem IsBinary.innermost : ∀ {k : Nat} {ts : List Token} {e : Expr}, IsBinary Γ false k ts e →
    ∃ e', IsBinary Γ true k ts e'
  | _, _, _, .op hl ho hr => by
      obtain ⟨_, hl⟩ := IsBinary.innermost hl
      obtain ⟨_, hr⟩ := IsBinary.innermost hr
      exact ⟨_, .op hl ho hr⟩
  | _, _, _, .tighter h => by
      obtain ⟨_, h⟩ := IsBinary.innermost h
      exact ⟨_, .tighter h⟩
  | _, _, _, .application h => by
      obtain ⟨_, h⟩ := IsApplication.innermost h
      exact ⟨_, .application h⟩

theorem IsApplication.innermost : ∀ {ts : List Token} {e : Expr}, IsApplication Γ false ts e →
    ∃ e', IsApplication Γ true ts e'
  | _, _, .head h => by
      obtain ⟨_, h⟩ := IsHead.innermost h
      exact ⟨_, .head h⟩
  | _, _, .app hf has => by
      obtain ⟨_, hf⟩ := IsHead.innermost hf
      obtain ⟨as', has', hlen⟩ := AreAtoms.innermost has
      cases as' with
      | nil => simp at hlen
      | cons a as => exact ⟨_, .app hf has'⟩

theorem IsHead.innermost : ∀ {ts : List Token} {e : Expr}, IsHead Γ false ts e →
    ∃ e', IsHead Γ true ts e'
  | _, _, .atom h => by
      obtain ⟨_, h⟩ := IsAtom.innermost h
      exact ⟨_, .atom h⟩
  | _, _, .negated hm ht => ⟨_, .negated hm ht⟩

theorem AreAtoms.innermost : ∀ {ts : List Token} {as : List Expr}, AreAtoms Γ false ts as →
    ∃ as', AreAtoms Γ true ts as' ∧ as'.length = as.length
  | _, _, .nil => ⟨[], .nil, rfl⟩
  | _, _, .cons h hs => by
      obtain ⟨_, h⟩ := IsAtom.innermost h
      obtain ⟨as', hs, hlen⟩ := AreAtoms.innermost hs
      exact ⟨_ :: as', .cons h hs, by simp [hlen]⟩

theorem IsAtom.innermost : ∀ {ts : List Token} {e : Expr}, IsAtom Γ false ts e →
    ∃ e', IsAtom Γ true ts e'
  | _, _, .int ht => ⟨_, .int ht⟩
  | _, _, .true ht => ⟨_, .true ht⟩
  | _, _, .false ht => ⟨_, .false ht⟩
  | _, _, .var ht => ⟨_, .var ht⟩
  | _, _, .ctor ht => ⟨_, .ctor ht⟩
  | _, _, .paren hl h hr => by
      obtain ⟨_, h⟩ := IsExpr.innermost h
      exact ⟨_, .paren hl h hr⟩
  | _, _, .annot hl h hc ht hr => by
      obtain ⟨_, h⟩ := IsExpr.innermost h
      exact ⟨_, .annot hl h hc ht hr⟩

end

/-- A sequence of tokens that has a reading as a program has an innermost one. -/
theorem IsProgram.innermost {ts : List Token} {p : Program} (h : IsProgram Γ false ts p) :
    ∃ p', IsProgram Γ true ts p' := by
  obtain ⟨his, hds, he, hz⟩ := h
  cases he with
  | missing => exact ⟨_, .mk his hds .missing hz⟩
  | expr h =>
      obtain ⟨_, h⟩ := h.innermost
      exact ⟨_, .mk his hds (.expr h) hz⟩
  | terminated h hs =>
      obtain ⟨_, h⟩ := h.innermost
      exact ⟨_, .mk his hds (.terminated h hs) hz⟩

end FunLang.Grammar
