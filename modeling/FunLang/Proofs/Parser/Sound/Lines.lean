import FunLang.Proofs.Grammar.Lines
import FunLang.Proofs.Parser.Acceptance
import FunLang.Proofs.Syntax.Source

set_option autoImplicit false

/-!
# Lines that are read without a message

The tokens of an interactive line that is read without an error are a line of the grammar. The
expressions of the grammar are source expressions, so what such a line holds is one as well.
-/

namespace FunLang

namespace Grammar

variable {Γ : CtorTable} {innermost : Bool}

mutual

theorem IsExpr.isSource : ∀ {ts : List Token} {e : Expr} {o : Bool}, IsExpr Γ innermost ts e o →
    e.isSource = true
  | _, _, _, .letIn _ _ _ hbound _ hbody => by
      simp [Expr.isSource, IsExpr.isSource hbound, IsExpr.isSource hbody]
  | _, _, _, .fn _ _ _ hbody => by simp [Expr.isSource, IsExpr.isSource hbody]
  | _, _, _, .cond _ htest _ hyes _ hno => by
      simp [Expr.isSource, IsExpr.isSource htest, IsExpr.isSource hyes, IsExpr.isSource hno]
  | _, _, _, .cases _ hs _ _ halts => by
      simp [Expr.isSource, IsExpr.isSource hs, AreAlts.areSource halts]
  | _, _, _, .binary h => IsBinary.isSource h

theorem AreAlts.areSource : ∀ {ts : List Token} {alts : List Alt}, AreAlts Γ innermost ts alts →
    Alt.areSource alts = true
  | _, _, .one _ _ hbody => by simp [Alt.areSource, IsExpr.isSource hbody]
  | _, _, .cons _ _ hbody _ _ halts => by
      simp [Alt.areSource, IsExpr.isSource hbody, AreAlts.areSource halts]

theorem IsBinary.isSource : ∀ {k : Nat} {ts : List Token} {e : Expr}, IsBinary Γ innermost k ts e →
    e.isSource = true
  | _, _, _, .op hl _ hr => by simp [Expr.isSource, IsBinary.isSource hl, IsBinary.isSource hr]
  | _, _, _, .tighter h => IsBinary.isSource h
  | _, _, _, .application h => IsApplication.isSource h

theorem IsApplication.isSource : ∀ {ts : List Token} {e : Expr}, IsApplication Γ innermost ts e →
    e.isSource = true
  | _, _, .head h => IsHead.isSource h
  | _, _, .app hf has => by simp [Expr.isSource, IsHead.isSource hf, AreAtoms.areSource has]

theorem IsHead.isSource : ∀ {ts : List Token} {e : Expr}, IsHead Γ innermost ts e → e.isSource = true
  | _, _, .atom h => IsAtom.isSource h
  | _, _, .negated _ _ => rfl

theorem AreAtoms.areSource : ∀ {ts : List Token} {es : List Expr}, AreAtoms Γ innermost ts es →
    Expr.areSource es = true
  | _, _, .nil => rfl
  | _, _, .cons h hs => by simp [Expr.areSource, IsAtom.isSource h, AreAtoms.areSource hs]

theorem IsAtom.isSource : ∀ {ts : List Token} {e : Expr}, IsAtom Γ innermost ts e → e.isSource = true
  | _, _, .int _ | _, _, .true _ | _, _, .false _ | _, _, .var _ | _, _, .ctor _ => rfl
  | _, _, .paren _ h _ => IsExpr.isSource h
  | _, _, .annot _ h _ _ _ => by simp [Expr.isSource, IsExpr.isSource h]

end

theorem IsLine.isSource {ts : List Token} {l : Parser.Line} (h : IsLine Γ innermost ts l) :
    l.expr.isSource = true := by
  obtain ⟨-, he, -⟩ := h
  cases he with
  | missing => rfl
  | entry h | terminated h _ =>
      cases h with
      | define _ _ _ h => exact h.isSource
      | expr h => exact h.isSource

end Grammar

namespace Parser

open Grammar

variable {T : Tolerance}

/-- What is read for a `let` is a definition or, with its `in`, an expression. -/
theorem ensures_definition (innermost : Bool) (n : Nat) (s : State) :
    Ensures T (definition n) s fun r s' =>
      Phrase n 4 s s' fun Γ ts => IsEntry Γ innermost ts r.1 r.2 := by
  unfold definition
  refine (ensures_expect (by simp) s).bind fun l s₁ => ?_
  refine (ensures_binderName s₁).bind fun x s₂ => ?_
  refine (ensures_expect (by simp) s₂).bind fun a s₃ => ?_
  refine (ensures_expr innermost n s₃).bind fun bound s₄ => ensures_current_bind ?_
  dsimp only
  split
  · refine ensures_pure ?_
    rintro hbound ⟨ha, hra⟩ ⟨t, hrx, hx, rfl⟩ ⟨hl, hrl⟩ hn
    have hread := hrl.trans (hrx.trans hra)
    have hlen := hread.length
    obtain ⟨ts, hts, o, hexpr, -⟩ := hbound (by omega)
    rw [hread.ctors] at hexpr
    rw [hrl.ctors] at hx
    exact ⟨_, hread.trans hts, .define hl hx ha hexpr⟩
  · refine (ensures_expect (by simp) s₄).bind fun i s₅ => ?_
    refine (ensures_expr innermost n s₅).bind fun body s₆ => ensures_pure ?_
    rintro hbody ⟨hi, hri⟩ hbound ⟨ha, hra⟩ ⟨t, hrx, hx, rfl⟩ ⟨hl, hrl⟩ hn
    have hread := hrl.trans (hrx.trans hra)
    have hlen := hread.length
    obtain ⟨ts, hts, o, hexpr, -⟩ := hbound (by omega)
    have hread' := hread.trans (hts.trans hri)
    have hlen' := hread'.length
    obtain ⟨us, hus, o', hexpr', -⟩ := hbody (by omega)
    rw [hread.ctors] at hexpr
    rw [hread'.ctors] at hexpr'
    rw [hrl.ctors] at hx
    exact ⟨_, by simpa using hread'.trans hus, .expr (.letIn hl hx ha hexpr hi hexpr')⟩

/-- What an entry and the end of a line make up. -/
theorem Reads.isContent {innermost : Bool} {s s₁ s' : State} {ts : List Token} {name : Option String}
    {e : Expr} (h : Reads s ts s₁) (hentry : IsEntry s.ctors innermost ts name e)
    (hfinish : s'.current.kind = .eof ∧ ((∃ t, t.kind = .semicolon ∧ Reads s₁ [t] s') ∨ s' = s₁)) :
    ∃ us, Reads s us s' ∧ IsContent s.ctors innermost us name e ∧ s'.current.kind = .eof := by
  rcases hfinish with ⟨heof, ⟨t, ht, hrt⟩ | rfl⟩
  · exact ⟨_, h.trans hrt, .terminated hentry ht, heof⟩
  · exact ⟨_, h, .entry hentry, heof⟩

/-- A line that is read without a complaint has been read up to the end of the input. What stands
behind its data is read with the table in which all its constructors are known. -/
theorem ensures_line (innermost : Bool) (n : Nat) (s : State) : Ensures T (line n) s fun l s' =>
    8 * s.rest.length + 4 ≤ n →
      ∃ ts us, Passes s (ts ++ us) s' ∧ Declares s (l.data.flatMap (·.ctors)) s' ∧
        (¬ Repeats s.ctors (l.data.flatMap (·.ctors)) → AreData s.ctors ts l.data s'.ctors) ∧
        IsContent s'.ctors innermost us l.name l.expr ∧ s'.current.kind = .eof := by
  unfold line
  refine (ensures_dataDecls n s).bind fun data s₁ => ensures_current_bind ?_
  -- the three cases differ only in what stands behind the data
  have hline {name : Option String} {e : Expr} {s' : State}
      (hcontent : 8 * s₁.rest.length + 4 ≤ n → ∃ us, Reads s₁ us s' ∧
        IsContent s₁.ctors innermost us name e ∧ s'.current.kind = .eof)
      (hdata : 8 * s.rest.length + 2 ≤ n → ∃ ts, Passes s ts s₁ ∧
        Declares s (data.flatMap (·.ctors)) s₁ ∧
        (¬ Repeats s.ctors (data.flatMap (·.ctors)) → AreData s.ctors ts data s₁.ctors))
      (hn : 8 * s.rest.length + 4 ≤ n) :
      ∃ ts us, Passes s (ts ++ us) s' ∧ Declares s (data.flatMap (·.ctors)) s' ∧
        (¬ Repeats s.ctors (data.flatMap (·.ctors)) → AreData s.ctors ts data s'.ctors) ∧
        IsContent s'.ctors innermost us name e ∧ s'.current.kind = .eof := by
    obtain ⟨ts, hts, hdeclares, hds⟩ := hdata (by omega)
    have hlen := hts.length
    obtain ⟨us, hus, he, heof⟩ := hcontent (by omega)
    rw [← hus.ctors] at hds he
    exact ⟨ts, us, hts.trans hus.toPasses, by simpa using hdeclares.trans hus.declares, hds, he, heof⟩
  split
  · rename_i heof
    exact ensures_pure (hline fun _ => ⟨[], .refl s₁, .missing, heof⟩)
  · refine (ensures_definition innermost n s₁).bind fun r s₂ => ?_
    refine (ensures_finish s₂).bind fun _ s₃ => ensures_pure fun hfinish hr => hline fun hn => ?_
    obtain ⟨us, hus, hentry⟩ := hr hn
    exact hus.isContent hentry hfinish
  · refine (ensures_expr innermost n s₁).bind fun e s₂ => ?_
    refine (ensures_finish s₂).bind fun _ s₃ => ensures_pure fun hfinish he => hline fun hn => ?_
    obtain ⟨us, hus, o, hexpr, -⟩ := he hn
    exact hus.isContent (.expr hexpr) hfinish

section Lines

variable {source : List UInt8} {Γ : CtorTable}

theorem hasErrors_parseLine_iff : Diagnostic.hasErrors (parseLine source Γ).2.diags = false ↔
    (parseLine source Γ).2.diags = [] := by
  constructor
  · exact (ensures_line true _ _ (State.consistent_start .none source Γ)).1.diags_eq_nil
  · intro h
    rw [h]
    rfl

/-- The tokens of a line that is read without an error are the line of the grammar that is read. -/
theorem isLine_parseLine (innermost : Bool)
    (h : Diagnostic.hasErrors (parseLine source Γ).2.diags = false) :
    IsLine Γ innermost (Lexer.tokenize source) (parseLine source Γ).1 := by
  rw [hasErrors_parseLine_iff] at h
  obtain ⟨-, hensures⟩ := ensures_line innermost _ _ (State.consistent_start .none source Γ)
  obtain ⟨ts, us, hpasses, hdeclares, hds, he, heof⟩ :=
    (hensures (State.within_none_iff.mpr h)).2 (le_depthFor _)
  obtain ⟨z, heq, hz⟩ := hpasses.exists_eq_concat heof
  -- a repeated constructor would have been reported
  obtain ⟨new, hdiags, hnew⟩ := hdeclares.diags
  have hrepeats : ¬ Repeats Γ ((parseLine source Γ).1.data.flatMap (·.ctors)) :=
    hnew.mp (by rw [← h]; exact hdiags.symm)
  rw [heq, List.append_assoc]
  exact .mk (hds hrepeats) he hz

/-- What is read from a line without an error is a source expression. -/
theorem isSource_parseLine (source : List UInt8) (Γ : CtorTable)
    (h : Diagnostic.hasErrors (parseLine source Γ).2.diags = false) :
    (parseLine source Γ).1.expr.isSource = true :=
  (isLine_parseLine true h).isSource

end Lines

end Parser

end FunLang
