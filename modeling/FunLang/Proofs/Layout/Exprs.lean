import FunLang.Proofs.Grammar.Starts
import FunLang.Proofs.Layout.Patterns

set_option autoImplicit false

/-!
# The tokens of expressions

Each place of an expression has a level, and the text of an expression at a place spells a phrase
that fits the place (`Fits`): any expression at the top, an atom at the tightest level, operators of
some level in between. An expression that binds weaker than its place is in parentheses and so is an
atom, which fits everywhere (`WritesAt.parenIf`).
-/

namespace FunLang.Layout

open Lexer Grammar

variable {Γ Δ : CtorTable}

attribute [local simp] Expr.unplaced Expr.unplacedAll Alt.unplacedAll

/-! ## Places -/

/-- The tokens are an expression that may stand at a place of the given level. -/
def Fits (Δ : CtorTable) : Nat → List Token → Expr → Prop
  | 0, ts, e => ∃ o, IsExpr Δ true ts e o
  | 5, ts, e => IsAtom Δ true ts e
  | place, ts, e => IsBinary Δ true place ts e

theorem fits_iff_isBinary {k : Nat} (hk : 0 < k) (hk' : k < atomic) {ts : List Token} {e : Expr} :
    Fits Δ k ts e ↔ IsBinary Δ true k ts e := by
  unfold atomic at hk'
  interval_cases k <;> rfl

/-- What fits a place fits the next weaker one. -/
theorem Fits.step {k : Nat} (hk : k < atomic) {ts : List Token} {e : Expr}
    (h : Fits Δ (k + 1) ts e) : Fits Δ k ts e := by
  unfold atomic at hk
  interval_cases k
  · exact ⟨false, .binary h⟩
  · exact IsBinary.tighter h
  · exact IsBinary.tighter h
  · exact IsBinary.tighter h
  · exact IsBinary.application (.head (.atom h))

theorem Fits.weaken {j k : Nat} (hjk : j ≤ k) (hk : k ≤ atomic) {ts : List Token} {e : Expr}
    (h : Fits Δ k ts e) : Fits Δ j ts e := by
  induction k, hjk using Nat.le_induction with
  | base => exact h
  | succ k _ ih => exact ih (by omega) (h.step hk)

/-- The text `s` spells the expression `e`, up to places, as it may stand at a place of the given
level. -/
def WritesAt (Δ : CtorTable) (place : Nat) (s : String) (e : Expr) : Prop :=
  Spells s (Denotes (Fits Δ place) Expr.unplaced e)

section Places

variable {k place : Nat} {s : String} {e : Expr}

theorem WritesAt.weaken (h : WritesAt Δ k s e) (hplace : place ≤ k) (hk : k ≤ atomic) :
    WritesAt Δ place s e :=
  h.mono fun _ ⟨e', he', heq⟩ => ⟨e', he'.weaken hplace hk, heq⟩

theorem WritesAt.of_atomic (h : WritesAt Δ atomic s e) (hplace : place ≤ atomic) :
    WritesAt Δ place s e :=
  h.weaken hplace (Nat.le_refl _)

/-- A text that fits one place fits any other if it is in parentheses where it binds too weak. -/
theorem WritesAt.parenIf (h : WritesAt Δ k s e) (hk : k ≤ atomic) (hplace : place ≤ atomic) :
    WritesAt Δ place (parenIf (k < place) s) e := by
  by_cases hlt : k < place
  · simp only [hlt, decide_true]
    -- inside the parentheses anything may stand, and together with them it is an atom
    have hparen : WritesAt Δ atomic (Layout.parenIf true s) e := by
      refine (h.weaken (Nat.zero_le k) hk).paren.mono ?_
      rintro _ ⟨l, us, r, rfl, hl, ⟨e', ⟨o, he'⟩, heq⟩, hr⟩
      exact ⟨e', IsAtom.paren hl he' hr, heq⟩
    exact hparen.of_atomic hplace
  · simp only [hlt, decide_false]
    exact h.weaken (Nat.le_of_not_lt hlt) hk

end Places

/-! ## Separators -/

theorem opens_assign : Opens " = " (IsToken .assign "=") :=
  (spells_symbol (by decide)).framed " " " " rfl rfl

theorem opens_colon : Opens " : " (IsToken .colon ":") :=
  (spells_symbol (by decide)).framed " " " " rfl rfl

theorem opens_let : Opens "let " (IsToken .kwLet "let") :=
  (spells_keyword (by decide)).framed "" " " rfl rfl

theorem opens_case : Opens "case " (IsToken .kwCase "case") :=
  (spells_keyword (by decide)).framed "" " " rfl rfl

/-! ## Forms without alternatives -/

section Forms

variable {place : Nat} {p : Pos} {e f l r : Expr}

theorem writesAt_int (hplace : place ≤ atomic) (n : Int64) :
    WritesAt Δ place (exprAt place (.int p n)) (.int p n) := by
  rw [exprAt]
  rcases Int.lt_or_le n.toInt 0 with hn | hn
  · -- a negative literal is the head of an application, but is put in parentheses already there
    have hnegated : WritesAt Δ multiplicative (toString n.toInt) (.int p n) := by
      refine (spells_neg hn).mono ?_
      rintro _ ⟨m, t, rfl, hm, ht⟩
      exact ⟨_, IsBinary.tighter (.application (.head (.negated hm ht))), rfl⟩
    rw [int_of_neg hn]
    exact hnegated.parenIf (by decide) hplace
  · have hatom : WritesAt Δ atomic (toString n.toInt) (.int p n) := by
      refine (spells_nonneg hn).mono ?_
      rintro _ ⟨t, rfl, ht⟩
      exact ⟨_, IsAtom.int ht, rfl⟩
    rw [int_of_nonneg hn]
    exact hatom.of_atomic hplace

theorem spells_operator {op : BinOp} (hop : op ≠ .unknown) :
    Spells op.symbol fun ts => ∃ t, ts = [t] ∧ IsOperator (level op) t.kind op := by
  have hsymbol : (op.symbol, op.kind) ∈ symbols ∧ IsOperator (level op) op.kind op := by
    cases op with
    | unknown => exact absurd rfl hop
    | add => exact ⟨by decide, .add⟩
    | sub => exact ⟨by decide, .sub⟩
    | mul => exact ⟨by decide, .mul⟩
    | lt => exact ⟨by decide, .lt⟩
    | gt => exact ⟨by decide, .gt⟩
    | le => exact ⟨by decide, .le⟩
    | ge => exact ⟨by decide, .ge⟩
  refine (spells_symbol hsymbol.1).mono ?_
  rintro _ ⟨t, rfl, hkind, -⟩
  exact ⟨t, rfl, hkind ▸ hsymbol.2⟩

theorem level_bounds (op : BinOp) : 0 < level op ∧ level op + 1 < atomic := by
  cases op <;> decide

theorem writesAt_binary {op : BinOp} (hop : op ≠ .unknown) {s t : String}
    (hl : WritesAt Δ (level op) s l) (hr : WritesAt Δ (level op + 1) t r) :
    WritesAt Δ (level op) (s ++ " " ++ op.symbol ++ " " ++ t) (.binary p op l r) := by
  obtain ⟨hpos, hlt⟩ := level_bounds op
  have hgap : Opens " " (· = []) := opens_gap rfl
  have hoperator := (hl.append_opens hgap rfl).append (spells_operator hop)
  refine ((hoperator.append_opens hgap rfl).append hr).mono ?_
  rintro _ ⟨_, us, rfl, ⟨_, _, rfl, ⟨_, _, rfl, ⟨ts, _, rfl, ⟨l', hl', heql⟩, rfl⟩, o, rfl, ho⟩,
    rfl⟩, r', hr', heqr⟩
  rw [fits_iff_isBinary hpos (by omega)] at hl'
  rw [fits_iff_isBinary (by omega) hlt] at hr'
  refine ⟨.binary o.pos op l' r', ?_, by simp [heql, heqr]⟩
  rw [fits_iff_isBinary hpos (by omega)]
  simpa using IsBinary.op hl' ho hr'

theorem writesAt_app {a : Expr} {as : List Expr} {s t u : String} (hf : WritesAt Δ atomic s f)
    (ha : WritesAt Δ atomic t a) (has : Spells u (Denotes (AreAtoms Δ true) Expr.unplacedAll as))
    (hu : Breaks (Text.encode u)) :
    WritesAt Δ application (s ++ " " ++ t ++ u) (.app p f (a :: as)) := by
  have hgap : Opens " " (· = []) := opens_gap rfl
  have hfirst := (hf.append_opens hgap rfl).append ha
  refine (hfirst.append has hu).mono ?_
  rintro _ ⟨_, vs, rfl, ⟨_, us, rfl, ⟨ts, _, rfl, ⟨f', hf', heqf⟩, rfl⟩, a', ha', heqa⟩,
    as', has', heqas⟩
  refine ⟨.app f'.pos f' (a' :: as'), ?_, ?_⟩
  · simp only [List.append_assoc, List.nil_append]
    exact IsBinary.application (.app (.atom hf') (.cons ha' has'))
  · simp [heqf, heqa, heqas]

theorem writesAt_annot {t : Ty} (ht : t.isWellFormed = true) {s : String}
    (he : WritesAt Δ top s e) :
    WritesAt Δ atomic ("(" ++ s ++ " : " ++ t.render ++ ")") (.annot p e t) := by
  have hclose : Spells ")" (IsToken .rparen ")") := spells_symbol (by decide)
  have hexpr := opens_lparen.append he
  have htype := (hexpr.append_opens opens_colon rfl).append (spells_type ht).1
  refine (htype.append hclose rfl).mono ?_
  rintro _ ⟨_, _, rfl, ⟨_, us, rfl, ⟨_, _, rfl, ⟨_, ts, rfl, ⟨b, rfl, hb, -⟩, e', ⟨o, he'⟩, heqe⟩,
    c, rfl, hc, -⟩, t', ht', heqt⟩, d, rfl, hd, -⟩
  refine ⟨.annot c.pos e' t', ?_, by simp [heqe, heqt]⟩
  simp only [List.append_assoc, List.cons_append, List.nil_append]
  exact IsAtom.annot hb he' hc ht' hd

theorem writesAt_fn (hΔ : Γ.Alike Δ) {x : String} (hx : isBinder Γ x = true) {s : String}
    (he : WritesAt Δ top s e) : WritesAt Δ top ("\\" ++ x ++ " -> " ++ s) (.fn p x e) := by
  have hparam := opens_lambda.append (spells_binder hΔ hx)
  refine ((hparam.append_opens opens_arrow rfl).append he).mono ?_
  rintro _ ⟨_, ts, rfl, ⟨_, _, rfl, ⟨_, _, rfl, ⟨f, rfl, hf, -⟩, x, rfl, hx', rfl⟩, a, rfl, ha, -⟩,
    e', ⟨o, he'⟩, heq⟩
  refine ⟨.fn f.pos x.text e', ⟨o, ?_⟩, by simp [heq]⟩
  simpa using IsExpr.fn (hf ▸ .lambda) hx' ha he'

/-- A `let`, whose body may start a new line. -/
theorem writesAt_letIn (hΔ : Γ.Alike Δ) {x : String} (hx : isBinder Γ x = true) {s t m : String}
    (hm : Opens m (IsToken .kwIn "in")) (hbreak : (Text.encode m).head?.any isBreak = true)
    (hl : WritesAt Δ top s l) (hr : WritesAt Δ top t r) :
    WritesAt Δ top ("let " ++ x ++ " = " ++ s ++ m ++ t) (.letIn p x l r) := by
  have hname := opens_let.append (spells_binder hΔ hx)
  have hbound := (hname.append_opens opens_assign rfl).append hl
  refine ((hbound.append_opens hm hbreak).append hr).mono ?_
  rintro _ ⟨_, us, rfl, ⟨_, _, rfl, ⟨_, ts, rfl, ⟨_, _, rfl, ⟨_, _, rfl, ⟨k, rfl, hk, -⟩,
    x, rfl, hx', rfl⟩, a, rfl, ha, -⟩, l', ⟨o, hl'⟩, heql⟩, i, rfl, hi, -⟩, r', ⟨o', hr'⟩, heqr⟩
  refine ⟨.letIn k.pos x.text l' r', ⟨o', ?_⟩, by simp [heql, heqr]⟩
  simpa using IsExpr.letIn hk hx' ha hl' hi hr'

theorem writesAt_cond {s t u : String} (he : WritesAt Δ top s e) (hl : WritesAt Δ top t l)
    (hr : WritesAt Δ top u r) :
    WritesAt Δ top ("if " ++ s ++ " then " ++ t ++ " else " ++ u) (.cond p e l r) := by
  have hif : Opens "if " (IsToken .kwIf "if") :=
    (spells_keyword (by decide)).framed "" " " rfl rfl
  have hthen : Opens " then " (IsToken .kwThen "then") :=
    (spells_keyword (by decide)).framed " " " " rfl rfl
  have helse : Opens " else " (IsToken .kwElse "else") :=
    (spells_keyword (by decide)).framed " " " " rfl rfl
  have hyes := ((hif.append he).append_opens hthen rfl).append hl
  refine ((hyes.append_opens helse rfl).append hr).mono ?_
  rintro _ ⟨_, vs, rfl, ⟨_, _, rfl, ⟨_, us, rfl, ⟨_, _, rfl, ⟨_, ts, rfl, ⟨i, rfl, hi, -⟩,
    e', ⟨o, he'⟩, heqe⟩, y, rfl, hy, -⟩, l', ⟨o', hl'⟩, heql⟩, n, rfl, hn, -⟩, r', ⟨o'', hr'⟩, heqr⟩
  refine ⟨.cond i.pos e' l' r', ⟨o'', ?_⟩, ?_⟩
  · simpa using IsExpr.cond hi he' hy hl' hn hr'
  · simp [heqe, heql, heqr]

end Forms

/-! ## Alternatives -/

/-- The alternatives with one text in front of each of them and another one behind it. -/
def alternativesIn (before after : String) : List Alt → String
  | [] => ""
  | .mk _ q e :: rest =>
    before ++ pattern q ++ " -> " ++ exprAt (if rest.isEmpty then top else comparison) e ++ after
      ++ alternativesIn before after rest

theorem alternatives_eq (alts : List Alt) : alternatives alts = alternativesIn " | " "" alts := by
  induction alts with
  | nil => rw [alternatives, alternativesIn]
  | cons a alts ih =>
      obtain ⟨p, q, e⟩ := a
      rw [alternatives, alternativesIn, ih, String.append_empty]

theorem breaks_alternativesIn (before after : String)
    (hbreak : (Text.encode before).head?.any isBreak = true) (alts : List Alt) :
    Breaks (Text.encode (alternativesIn before after alts)) := by
  cases alts with
  | nil => rfl
  | cons a alts =>
      obtain ⟨p, q, e⟩ := a
      simp only [alternativesIn, Text.encode_append, List.append_assoc]
      exact breaks_append hbreak _

theorem spells_alternative (hΔ : Γ.Alike Δ) {q : Pattern} (hq : q.isWellFormed Γ = true)
    {before s : String} (hbefore : Opens before (IsToken .bar "|")) {Q : List Token → Prop}
    (hs : Spells s Q) :
    Spells (before ++ pattern q ++ " -> " ++ s) fun ts => ∃ b x us a vs q',
      ts = b :: x :: (us ++ a :: vs) ∧ b.kind = .bar ∧ IsPattern Δ (x :: us) q' ∧
        q'.unplaced = q.unplaced ∧ a.kind = .arrow ∧ Q vs := by
  have hpattern := hbefore.append (spells_pattern hΔ hq).1
  refine ((hpattern.append_opens opens_arrow rfl).append hs).mono ?_
  rintro _ ⟨_, vs, rfl, ⟨_, _, rfl, ⟨_, ts, rfl, ⟨b, rfl, hb, -⟩, q', hq', heq⟩, a, rfl, ha, -⟩,
    hvs⟩
  -- the grammar names the first token of the pattern, where the alternative stands
  obtain ⟨x, us, rfl, -⟩ := hq'.starts
  exact ⟨b, x, us, a, vs, q', by simp, hb, hq', heq, ha, hvs⟩

/-- The alternatives of a `case` whose bodies are known to be written as they should. -/
theorem spells_alternativesIn (hΔ : Γ.Alike Δ) {before : String} (after : String)
    (hbefore : Opens before (IsToken .bar "|"))
    (hbreak : (Text.encode before).head?.any isBreak = true)
    (hafter : (Text.encode after).all isGap = true) (hbreaks : Breaks (Text.encode after))
    {alts : List Alt} (halts : Alt.areWellFormed Γ alts = true) (hne : alts ≠ [])
    (hbodies : ∀ a ∈ alts, ∀ place ≤ atomic, WritesAt Δ place (exprAt place a.body) a.body) :
    Spells (alternativesIn before after alts) fun ts => ∃ b us, ts = b :: us ∧ b.kind = .bar ∧
      Denotes (AreAlts Δ true) Alt.unplacedAll alts us := by
  induction alts with
  | nil => exact absurd rfl hne
  | cons a alts ih =>
      obtain ⟨p, q, e⟩ := a
      simp only [Alt.areWellFormed, Bool.and_eq_true] at halts
      obtain ⟨⟨hq, -⟩, halts⟩ := halts
      have hbody : ∀ place ≤ atomic, WritesAt Δ place (exprAt place e) e :=
        hbodies (.mk p q e) List.mem_cons_self
      cases alts with
      | nil =>
          have hlast := spells_alternative hΔ hq hbefore (hbody top (by decide))
          refine ((hlast.before_gap hafter hbreaks).append spells_empty rfl).mono ?_
          rintro _ ⟨_, _, rfl, ⟨b, x, us, a, vs, q', rfl, hb, hq', heqq, ha, e', ⟨o, he'⟩, heqe⟩,
            rfl⟩
          refine ⟨b, x :: (us ++ a :: vs), by simp, hb, _, .one hq' ha he', ?_⟩
          simp [heqq, heqe]
      | cons a alts =>
          -- at the level of comparisons the body cannot end with an open `case`, which would take
          -- the alternatives that follow
          have hfirst := spells_alternative hΔ hq hbefore (hbody comparison (by decide))
          have hrest := ih halts (by simp) fun a' ha' => hbodies a' (List.mem_cons_of_mem _ ha')
          refine ((hfirst.before_gap hafter hbreaks).append hrest
            (breaks_alternativesIn before after hbreak _)).mono ?_
          rintro _ ⟨_, _, rfl, ⟨b, x, us, a, vs, q', rfl, hb, hq', heqq, ha, e', he', heqe⟩,
            b', ws, rfl, hb', alts', halts', heqalts⟩
          refine ⟨b, x :: (us ++ a :: (vs ++ b' :: ws)), by simp, hb, _,
            .cons hq' ha (.binary he') (fun _ => rfl) hb' halts', ?_⟩
          simp [heqq, heqe, heqalts]

/-- A `case`, whose alternatives may stand on lines of their own. -/
theorem writesAt_cases {p : Pos} {e : Expr} {alts : List Alt} {s m t : String}
    (he : WritesAt Δ top s e) (hm : Spells m (IsToken .kwOf "of"))
    (hbreak : Breaks (Text.encode m)) (ht : Breaks (Text.encode t))
    (halts : Spells t fun ts => ∃ b us, ts = b :: us ∧ b.kind = .bar ∧
      Denotes (AreAlts Δ true) Alt.unplacedAll alts us) :
    WritesAt Δ top ("case " ++ s ++ m ++ t) (.cases p e alts) := by
  have hof := (opens_case.append he).append hm hbreak
  refine (hof.append halts ht).mono ?_
  rintro _ ⟨_, _, rfl, ⟨_, _, rfl, ⟨_, ts, rfl, ⟨c, rfl, hc, -⟩, e', ⟨o, he'⟩, heqe⟩,
    f, rfl, hf, -⟩, b, us, rfl, hb, alts', halts', heqalts⟩
  refine ⟨.cases c.pos e' alts', ⟨true, ?_⟩, by simp [heqe, heqalts]⟩
  simpa using IsExpr.cases hc he' hf (.bar hb) halts'

/-! ## Expressions -/

theorem opens_in : Opens " in " (IsToken .kwIn "in") :=
  (spells_keyword (by decide)).framed " " " " rfl rfl

theorem spells_of : Spells " of" (IsToken .kwOf "of") := by
  have hof : Spells "of" (IsToken .kwOf "of") := spells_keyword (by decide)
  exact hof.after_gap (g := " ") rfl

theorem opens_bar : Opens " | " (IsToken .bar "|") :=
  (spells_symbol (by decide)).framed " " " " rfl rfl

mutual

/-- The text of a well-formed expression at any place spells that expression. -/
theorem writesAt_exprAt (hΔ : Γ.Alike Δ) : ∀ {e : Expr}, e.isWellFormed Γ = true →
    ∀ place ≤ atomic, WritesAt Δ place (exprAt place e) e
  | .int p n, _, place, hplace => writesAt_int hplace n
  | .bool p b, _, place, hplace => by
      have hatom : WritesAt Δ atomic (bool b) (.bool p b) := by
        refine (spells_bool b).mono ?_
        rintro _ ⟨t, rfl, ht⟩
        cases b with
        | false => exact ⟨_, IsAtom.false ht, rfl⟩
        | true => exact ⟨_, IsAtom.true ht, rfl⟩
      rw [exprAt]
      exact hatom.of_atomic hplace
  | .var p x, h, place, hplace => by
      have hatom : WritesAt Δ atomic x (.var p x) := by
        refine (spells_binder hΔ h).mono ?_
        rintro _ ⟨t, rfl, ht, rfl⟩
        exact ⟨_, IsAtom.var ht, rfl⟩
      rw [exprAt]
      exact hatom.of_atomic hplace
  | .ctor p c, h, place, hplace => by
      have hatom : WritesAt Δ atomic c.name (.ctor p c) := by
        refine (spells_constructor hΔ h).mono ?_
        rintro _ ⟨t, c', rfl, ht, hc'⟩
        exact ⟨_, IsAtom.ctor ht, by simp [hc']⟩
      rw [exprAt]
      exact hatom.of_atomic hplace
  | .binary p op l r, h, place, hplace => by
      simp only [Expr.isWellFormed, Bool.and_eq_true, bne_iff_ne] at h
      obtain ⟨⟨hop, hl⟩, hr⟩ := h
      obtain ⟨-, hlevel⟩ := level_bounds op
      -- operators of one level group to the left, so that only the right operand needs a higher one
      have hleft := writesAt_exprAt hΔ hl (level op) (by omega)
      have hright := writesAt_exprAt hΔ hr (level op + 1) (by omega)
      rw [exprAt]
      exact (writesAt_binary hop hleft hright).parenIf (by omega) hplace
  | .cond p c t e, h, place, hplace => by
      simp only [Expr.isWellFormed, Bool.and_eq_true] at h
      obtain ⟨⟨hc, ht⟩, he⟩ := h
      have htest := writesAt_exprAt hΔ hc top (by decide)
      have hyes := writesAt_exprAt hΔ ht top (by decide)
      have hno := writesAt_exprAt hΔ he top (by decide)
      rw [exprAt]
      exact (writesAt_cond htest hyes hno).parenIf (by decide) hplace
  | .fn p x e, h, place, hplace => by
      simp only [Expr.isWellFormed, Bool.and_eq_true] at h
      have hbody := writesAt_exprAt hΔ h.2 top (by decide)
      rw [exprAt]
      exact (writesAt_fn hΔ h.1 hbody).parenIf (by decide) hplace
  | .app p f [], h, place, hplace => by simp [Expr.isWellFormed] at h
  | .app p f (a :: as), h, place, hplace => by
      simp only [Expr.isWellFormed, Expr.areWellFormed, Bool.and_eq_true] at h
      obtain ⟨⟨-, hf⟩, ha, has⟩ := h
      have hfunc := writesAt_exprAt hΔ hf atomic (by decide)
      have hfirst := writesAt_exprAt hΔ ha atomic (by decide)
      obtain ⟨hargs, hbreaks⟩ := spells_args hΔ has
      rw [exprAt]
      exact (writesAt_app hfunc hfirst hargs hbreaks).parenIf (by decide) hplace
  | .letIn p x l r, h, place, hplace => by
      simp only [Expr.isWellFormed, Bool.and_eq_true] at h
      obtain ⟨⟨hx, hl⟩, hr⟩ := h
      have hbound := writesAt_exprAt hΔ hl top (by decide)
      have hbody := writesAt_exprAt hΔ hr top (by decide)
      rw [exprAt]
      exact (writesAt_letIn hΔ hx opens_in rfl hbound hbody).parenIf (by decide) hplace
  | .annot p e t, h, place, hplace => by
      simp only [Expr.isWellFormed, Bool.and_eq_true] at h
      have hexpr := writesAt_exprAt hΔ h.1 top (by decide)
      rw [exprAt]
      -- an annotation brings its parentheses with it, wherever it stands
      exact (writesAt_annot h.2 hexpr).of_atomic hplace
  | .cases p s alts, h, place, hplace => by
      simp only [Expr.isWellFormed, Bool.and_eq_true] at h
      obtain ⟨⟨hne, hs⟩, halts⟩ := h
      have hscrutinee := writesAt_exprAt hΔ hs top (by decide)
      have halternatives := spells_alternativesIn hΔ "" opens_bar rfl rfl rfl halts
        (by simpa using hne) (writesAt_bodies hΔ halts)
      have hbreaks := breaks_alternativesIn " | " "" rfl alts
      rw [exprAt, alternatives_eq]
      have hcases := writesAt_cases (p := p) hscrutinee spells_of rfl hbreaks halternatives
      exact hcases.parenIf (by decide) hplace

theorem spells_args (hΔ : Γ.Alike Δ) : ∀ {es : List Expr}, Expr.areWellFormed Γ es = true →
    Spells (args es) (Denotes (AreAtoms Δ true) Expr.unplacedAll es) ∧
      Breaks (Text.encode (args es))
  | [], _ => by
      rw [args]
      exact ⟨spells_empty.mono fun _ h => ⟨[], h ▸ .nil, rfl⟩, rfl⟩
  | e :: es, h => by
      simp only [Expr.areWellFormed, Bool.and_eq_true] at h
      obtain ⟨hargs, hbreaks⟩ := spells_args hΔ h.2
      rw [args]
      have hfirst := (writesAt_exprAt hΔ h.1 atomic (by decide)).after_gap (g := " ") rfl
      refine ⟨(hfirst.append hargs hbreaks).mono ?_, ?_⟩
      · rintro _ ⟨ts, us, rfl, ⟨e', he', heqe⟩, es', hes', heqes⟩
        exact ⟨_, .cons he' hes', by simp [heqe, heqes]⟩
      · rw [Text.encode_append, Text.encode_append, List.append_assoc]
        exact breaks_append rfl _

theorem writesAt_bodies (hΔ : Γ.Alike Δ) : ∀ {alts : List Alt}, Alt.areWellFormed Γ alts = true →
    ∀ a ∈ alts, ∀ place ≤ atomic, WritesAt Δ place (exprAt place a.body) a.body
  | [], _ => by simp
  | .mk p q e :: alts, h => by
      simp only [Alt.areWellFormed, Bool.and_eq_true] at h
      intro a ha
      rcases List.mem_cons.mp ha with rfl | ha
      · exact writesAt_exprAt hΔ h.1.2
      · exact writesAt_bodies hΔ h.2 a ha

end

end FunLang.Layout
