import FunLang.Proofs.Parser.Complete.Patterns

set_option autoImplicit false

/-!
# Expressions are read

Every expression of the grammar in its innermost reading is read as that expression. What comes next
must not go on with it: no argument, no operator, and no bar if the expression ends with an open `case`.

For operators the statement is that the parser, having read an expression of a level, goes on to look for
operators with that expression on the left (`yields_binary`).
-/

namespace FunLang.Parser

open Grammar

/-- The tokens in `rest` cannot go on with an expression before them; `o` tells whether that ends with
an open `case`. -/
structure Follows (o : Bool) (rest : List Token) : Prop where
  startsAtom : startsAtom (nextKind rest) = false
  level : level (nextKind rest) = 0
  bar : o = true → nextKind rest ≠ .bar

/-- The tokens that end every expression before them. -/
def closes : TokenKind → Bool
  | .eof | .kwIn | .kwThen | .kwElse | .kwOf | .rparen | .colon | .semicolon => true
  | _ => false

theorem follows_of_closes {rest : List Token} (h : closes (nextKind rest) = true) (o : Bool) :
    Follows o rest := by
  generalize hk : nextKind rest = k at h
  constructor <;> rw [hk] <;> cases k <;> simp_all [closes, Parser.startsAtom, Parser.level]

theorem follows_bar {b : Token} (hb : b.kind = .bar) {o : Bool} (ho : o = false) (rest : List Token) :
    Follows o (b :: rest) :=
  ⟨by simp [hb, Parser.startsAtom], by simp [hb, Parser.level], by simp [ho]⟩

variable {Γ : CtorTable}

/-! ## Operators -/

/-- No operator is read that binds weaker than asked for. -/
theorem yields_operators_of_lt {min : Nat} {rest : List Token} (h : level (nextKind rest) < min) :
    ∀ (n : Nat) (e : Expr), Yields (operators n min e) (.before Γ rest) e (.before Γ rest)
  | 0, e => yields_pure e _
  | n + 1, e => by
      rw [operators]
      refine yields_current_bind ?_
      show Yields (if level (nextKind rest) = 0 ∨ level (nextKind rest) < min then pure e else _) _ _ _
      rw [if_pos (Or.inr h)]
      exact yields_pure e _

/-! ## Expressions -/

theorem yields_optionalBar {bs us : List Token} (hbs : IsOptionalBar bs)
    (hus : startsPattern (nextKind us) = true) :
    ∃ b, Yields (accept .bar) (.before Γ (bs ++ us)) b (.before Γ us) := by
  cases hbs with
  | none =>
      refine ⟨false, yields_accept_of_ne fun h => ?_⟩
      rw [List.nil_append] at h
      simp [h, startsPattern] at hus
  | bar hb => exact ⟨true, yields_accept hb us⟩

/-- What starts with an operand is read as operators and operands. -/
theorem yields_expr_of_binary {n : Nat} {ts : List Token} {e : Expr} {s' : State}
    (hstart : startsOperand (nextKind ts) = true) (h : Yields (binary n 1) (.before Γ ts) e s') :
    Yields (expr (n + 1)) (.before Γ ts) e s' := by
  rw [expr]
  refine yields_current_bind ?_
  split
  -- the five forms with a keyword of their own start with no operand
  iterate 5
    rename_i hk
    rw [State.kind_current_before] at hk
    rw [hk] at hstart
    cases hstart
  exact h

mutual

theorem yields_expr : ∀ {ts : List Token} {e : Expr} {o : Bool}, IsExpr Γ true ts e o →
    ∀ (n : Nat) (rest : List Token), 8 * ts.length + 4 ≤ n → Follows o rest →
      Yields (expr n) (.before Γ (ts ++ rest)) e (.before Γ rest)
  | _, _, _, .letIn hl hx ha hbound hi hbody, n + 1, rest, hn, hnext => by
      simp only [List.length_append, List.length_cons] at hn
      rw [expr]
      refine yields_current_bind ?_
      simp only [List.cons_append, List.append_assoc, State.current_before_cons, hl]
      refine (yields_expect hl _).bind ((yields_binderName hx _).bind ((yields_expect ha _).bind ?_))
      refine (yields_expr hbound n _ (by omega) (follows_of_closes (by simp [hi, closes]) _)).bind ?_
      refine (yields_expect hi _).bind ?_
      exact (yields_expr hbody n rest (by omega) hnext).bind (yields_pure _ _)
  | _, _, _, .fn (f := f) hf hx ha hbody, n + 1, rest, hn, hnext => by
      simp only [List.length_cons] at hn
      rw [expr]
      refine yields_current_bind ?_
      rcases hf.eq_or with hk | hk
      all_goals
        simp only [List.cons_append, State.current_before_cons, hk]
        refine (yields_advance f _).bind ((yields_binderName hx _).bind ((yields_expect ha _).bind ?_))
        exact (yields_expr hbody n rest (by omega) hnext).bind (yields_pure _ _)
  | _, _, _, .cond hi htest ht hyes he hno, n + 1, rest, hn, hnext => by
      simp only [List.length_append, List.length_cons] at hn
      rw [expr]
      refine yields_current_bind ?_
      simp only [List.cons_append, List.append_assoc, State.current_before_cons, hi]
      refine (yields_expect hi _).bind ?_
      refine (yields_expr htest n _ (by omega) (follows_of_closes (by simp [ht, closes]) _)).bind ?_
      refine (yields_expect ht _).bind ?_
      refine (yields_expr hyes n _ (by omega) (follows_of_closes (by simp [he, closes]) _)).bind ?_
      refine (yields_expect he _).bind ?_
      exact (yields_expr hno n rest (by omega) hnext).bind (yields_pure _ _)
  | _, _, _, .cases hc hs hf hbs halts, n + 1, rest, hn, hnext => by
      simp only [List.length_append, List.length_cons] at hn
      rw [expr]
      refine yields_current_bind ?_
      simp only [List.cons_append, List.append_assoc, State.current_before_cons, hc]
      refine (yields_expect hc _).bind ?_
      refine (yields_expr hs n _ (by omega) (follows_of_closes (by simp [hf, closes]) _)).bind ?_
      refine (yields_expect hf _).bind ?_
      obtain ⟨b, hb⟩ := yields_optionalBar hbs (halts.starts.nextKind rest)
      refine hb.bind ?_
      exact (yields_alternatives halts n rest (by omega) hnext).bind (yields_pure _ _)
  | _, _, _, .binary h, n + 1, rest, hn, hnext => by
      refine yields_expr_of_binary (h.starts.nextKind rest) ?_
      refine yields_binary h n 1 rest (by omega) le_rfl hnext.startsAtom ?_ _ _ fun n' _ => ?_
      · simp [hnext.level]
      · exact yields_operators_of_lt (by simp [hnext.level]) n' _

theorem yields_alternatives : ∀ {ts : List Token} {alts : List Alt}, AreAlts Γ true ts alts →
    ∀ (n : Nat) (rest : List Token), 8 * ts.length + 3 ≤ n → Follows true rest →
      Yields (alternatives n) (.before Γ (ts ++ rest)) alts (.before Γ rest)
  | _, _, .one hp ha hbody, n + 1, rest, hn, hnext => by
      simp only [List.length_append, List.length_cons] at hn
      rw [alternatives]
      refine yields_current_bind ?_
      simp only [List.cons_append, List.append_assoc, State.current_before_cons]
      refine (yields_pattern hp n _ (by simp; omega) (by simp [ha, startsPattern])).bind ?_
      refine (yields_expect ha _).bind ?_
      refine (yields_expr hbody n rest (by omega) ⟨hnext.1, hnext.2, fun _ => hnext.3 rfl⟩).bind ?_
      exact (yields_accept_of_ne (hnext.bar rfl)).bind (yields_pure _ _)
  | _, _, .cons hp ha hbody ho hb halts, n + 1, rest, hn, hnext => by
      simp only [List.length_append, List.length_cons] at hn
      rw [alternatives]
      refine yields_current_bind ?_
      simp only [List.cons_append, List.append_assoc, State.current_before_cons]
      refine (yields_pattern hp n _ (by simp; omega) (by simp [ha, startsPattern])).bind ?_
      refine (yields_expect ha _).bind ?_
      refine (yields_expr hbody n _ (by omega) (follows_bar hb (ho rfl) _)).bind ?_
      refine (yields_accept hb _).bind ?_
      exact (yields_alternatives halts n rest (by omega) hnext).bind (yields_pure _ _)

theorem yields_binary : ∀ {k : Nat} {ts : List Token} {e : Expr}, IsBinary Γ true k ts e →
    ∀ (n min : Nat) (rest : List Token), 8 * ts.length + 3 ≤ n → min ≤ k →
      startsAtom (nextKind rest) = false → level (nextKind rest) ≤ k → ∀ (e' : Expr) (s' : State),
      (∀ n', n ≤ n' + ts.length → Yields (operators n' min e) (.before Γ rest) e' s') →
      Yields (binary n min) (.before Γ (ts ++ rest)) e' s'
  | k, _, _, .op (o := o) hl ho hr, n, min, rest, hn, hmin, hatom, hlevel, e', s', hops => by
      simp only [List.length_append, List.length_cons] at hn hops
      rw [List.append_assoc, List.cons_append]
      refine yields_binary hl n min _ (by omega) hmin (by simp [ho.not_startsAtom]) (by simp [ho.level_eq])
        e' s' fun n' hn' => ?_
      -- the left operand has been read; the operator after it is the one in question
      obtain ⟨m, rfl⟩ : ∃ m, n' = m + 1 := ⟨n' - 1, by omega⟩
      have hpos := ho.pos
      rw [operators]
      refine yields_current_bind ?_
      simp only [State.current_before_cons, ho.level_eq]
      rw [if_neg (by omega)]
      refine (yields_advance o _).bind ?_
      rw [ho.ofKind_eq]
      -- what comes next is no tighter than the operator, so the right operand ends before it
      refine (yields_binary hr m (k + 1) rest (by omega) le_rfl hatom (by omega) _ _
        fun n'' _ => yields_operators_of_lt (by omega) n'' _).bind ?_
      exact hops m (by omega)
  | _, _, _, .tighter h, n, min, rest, hn, hmin, hatom, hlevel, e', s', hops =>
      yields_binary h n min rest hn (by omega) hatom (by omega) e' s' hops
  | _, _, _, .application h, n + 1, min, rest, hn, hmin, hatom, hlevel, e', s', hops => by
      rw [binary]
      have hpos := h.starts.length_pos
      refine (yields_application h n rest (by omega) hatom).bind (hops n ?_)
      omega

theorem yields_application : ∀ {ts : List Token} {e : Expr}, IsApplication Γ true ts e →
    ∀ (n : Nat) (rest : List Token), 8 * ts.length + 2 ≤ n → startsAtom (nextKind rest) = false →
      Yields (application n) (.before Γ (ts ++ rest)) e (.before Γ rest)
  | _, _, .head h, n + 1, rest, hn, hnext => by
      rw [application]
      refine (yields_head h n rest (by omega)).bind (yields_current_bind ?_)
      rw [if_neg (by simpa using hnext)]
      exact yields_pure _ _
  | _, _, .app hf has, n + 1, rest, hn, hnext => by
      rw [List.length_append] at hn
      rw [application, List.append_assoc]
      have hpos := hf.starts.length_pos
      refine (yields_head hf n _ (by omega)).bind (yields_current_bind ?_)
      rw [if_pos (by simpa using has.starts.nextKind _)]
      exact (yields_atoms has n rest (by omega) hnext).bind (yields_pure _ _)

theorem yields_head : ∀ {ts : List Token} {e : Expr}, IsHead Γ true ts e →
    ∀ (n : Nat) (rest : List Token), 8 * ts.length + 1 ≤ n →
      Yields (atom n) (.before Γ (ts ++ rest)) e (.before Γ rest)
  | _, _, .atom h, n, rest, hn => yields_atom h n rest hn
  | _, _, .negated hm ht, n + 1, rest, hn => by
      rw [atom]
      refine yields_current_bind ?_
      simp only [List.cons_append, List.nil_append, State.current_before_cons, hm]
      refine yields_peek_bind ?_
      rw [if_pos (by exact ht.1)]
      exact yields_negated ht _ rest

theorem yields_atoms : ∀ {ts : List Token} {as : List Expr}, AreAtoms Γ true ts as →
    ∀ (n : Nat) (rest : List Token), 8 * ts.length + 2 ≤ n → startsAtom (nextKind rest) = false →
      Yields (atoms n) (.before Γ (ts ++ rest)) as (.before Γ rest)
  | _, _, .nil, n + 1, rest, _, hnext => by
      rw [atoms]
      refine yields_current_bind ?_
      rw [if_neg (by simpa using hnext)]
      exact yields_pure _ _
  | _, _, .cons h hs, n + 1, rest, hn, hnext => by
      have hpos := h.starts.length_pos
      rw [List.length_append] at hn
      rw [atoms, List.append_assoc]
      refine yields_current_bind ?_
      rw [if_pos (by simpa using h.starts.nextKind _)]
      refine (yields_atom h n _ (by omega)).bind ?_
      exact (yields_atoms hs n rest (by omega) hnext).bind (yields_pure _ _)

theorem yields_atom : ∀ {ts : List Token} {e : Expr}, IsAtom Γ true ts e →
    ∀ (n : Nat) (rest : List Token), 8 * ts.length + 1 ≤ n →
      Yields (atom n) (.before Γ (ts ++ rest)) e (.before Γ rest)
  | _, _, .int (t := t) ht, n + 1, rest, hn => by
      rw [atom]
      refine yields_current_bind ?_
      simp only [List.cons_append, List.nil_append, State.current_before_cons, ht.1]
      refine (yields_advance t _).bind ?_
      exact (yields_intLiteral ht.2 _).bind (yields_pure _ _)
  | _, _, .true (t := t) ht, n + 1, rest, hn => by
      rw [atom]
      refine yields_current_bind ?_
      simp only [List.cons_append, List.nil_append, State.current_before_cons, ht]
      exact (yields_advance t _).bind (yields_pure _ _)
  | _, _, .false (t := t) ht, n + 1, rest, hn => by
      rw [atom]
      refine yields_current_bind ?_
      simp only [List.cons_append, List.nil_append, State.current_before_cons, ht]
      exact (yields_advance t _).bind (yields_pure _ _)
  | _, _, .var (t := t) ht, n + 1, rest, hn => by
      rw [atom]
      refine yields_current_bind ?_
      simp only [List.cons_append, List.nil_append, State.current_before_cons, ht.1]
      refine (yields_advance t _).bind (yields_ctor?_bind ?_)
      simp only [State.before, ht.2]
      exact yields_pure _ _
  | _, _, .ctor (t := t) ht, n + 1, rest, hn => by
      rw [atom]
      refine yields_current_bind ?_
      simp only [List.cons_append, List.nil_append, State.current_before_cons, ht.1]
      refine (yields_advance t _).bind (yields_ctor?_bind ?_)
      simp only [State.before, ht.2]
      exact yields_pure _ _
  | _, _, .paren (l := l) hl h hr, n + 1, rest, hn => by
      simp only [List.length_append, List.length_cons] at hn
      rw [atom]
      refine yields_current_bind ?_
      simp only [List.cons_append, List.append_assoc, List.nil_append, State.current_before_cons, hl]
      refine (yields_advance l _).bind ?_
      refine (yields_expr h n _ (by omega) (follows_of_closes (by simp [hr, closes]) _)).bind ?_
      refine yields_check_bind ?_
      rw [if_neg (by simp [hr])]
      exact (yields_expect hr rest).bind (yields_pure _ _)
  | _, _, .annot (l := l) (c := c) hl h hc ht hr, n + 1, rest, hn => by
      simp only [List.length_append, List.length_cons] at hn
      rw [atom]
      refine yields_current_bind ?_
      simp only [List.cons_append, List.append_assoc, List.nil_append, State.current_before_cons, hl]
      refine (yields_advance l _).bind ?_
      refine (yields_expr h n _ (by omega) (follows_of_closes (by simp [hc, closes]) _)).bind ?_
      refine yields_check_bind ?_
      rw [if_pos (by simp [hc])]
      refine (yields_advance c _).bind ?_
      refine (yields_type ht n _ (by omega) (by simp [hr])).bind ?_
      exact (yields_expect hr rest).bind (yields_pure _ _)

end

end FunLang.Parser
