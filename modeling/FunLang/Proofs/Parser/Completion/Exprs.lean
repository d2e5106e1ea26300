import FunLang.Proofs.Parser.Completion

set_option autoImplicit false

/-!
# Expressions that can be completed

One theorem for each parser of types, patterns and expressions: if all that it reports is that the input
ends, then there is a text that makes what it has read the start of a phrase that is read without a
message. A missing atom is put in as `true`, a missing type as `Int`.

What is completed is a phrase of the grammar in any of its readings. That there is an innermost one as
well is known from the grammar.
-/

namespace FunLang.Parser

open Grammar

variable {z : Token}

/-! ## Types -/

theorem completable_atomicType : Completable (fun ts => ∃ t, IsAtomicType ts t) [] := by
  refine (completable_keyword "Int" .intType (by decide)).mono ?_
  rintro _ ⟨t, ht, hk⟩
  rw [ht]
  exact ⟨_, .name (hk ▸ .int)⟩

mutual

theorem completes_type (hz : z.kind = .eof) : ∀ (n M : Nat), 8 * M + 2 ≤ n →
    Completes z M M (type n) fun _ ts => ∃ t, IsType ts t
  | n + 1, 0, _ => by
      refine .zero (moves_type stepwise_grows _) fun _ => completable_atomicType.mono ?_
      rintro us ⟨t, ht⟩
      exact ⟨t, .atomic ht⟩
  | n + 1, M + 1, hn => by
      have hatomic := completes_atomicType hz n M (by omega)
      have htype := completes_type hz n M (by omega)
      rw [type]
      refine Completes.mono (Completes.weaken (hatomic.bind fun t => completes_check_bind hz (by simp)
        (fun a => htype.map fun u => .arrow a.pos t u) (completes_pure t)) le_rfl (Nat.le_succ M)) ?_
      rintro _ _ ⟨us, _, rfl, ⟨t, ht⟩, rfl | ⟨_, vs, rfl, ⟨a, rfl, ha⟩, u, hu⟩⟩
      · rw [List.append_nil]
        exact ⟨t, .atomic ht⟩
      · exact ⟨_, .arrow ht ha hu⟩

theorem completes_atomicType (hz : z.kind = .eof) : ∀ (n M : Nat), 8 * (M + 1) + 1 ≤ n →
    Completes z (M + 1) M (atomicType n) fun _ ts => ∃ t, IsAtomicType ts t
  | n + 1, M, hn => by
      refine Completes.shrink (N := M + 1) (.of_ensures hz (moves_atomicType stepwise_grows _)
        (ensures_atomicType (n + 1)) (fun _ t _ _ _ ht => ⟨t, ht⟩) hn (fun _ => completable_atomicType)
        fun Γ t ts hlen hts => ?_) fun _ _ ⟨t, ht⟩ => ht.starts.length_pos
      have hname : CompletesAt z (do let _ ← advance; return Ty.name t.pos t.text)
          (fun us => ∃ t, IsAtomicType us t) Γ (t :: ts) :=
        completesAt_of_yields ((yields_advance t _).bind (yields_pure _ _))
      rw [atomicType]
      refine completesAt_current_bind ?_
      cases hk : t.kind with
      | intType => exact hname
      | boolType => exact hname
      | ident => exact hname
      | lparen =>
          have hinner := (completes_type hz n M (by omega)).bind fun ty =>
            (completes_symbol hz ")" .rparen (by decide)).keep.map fun _ => ty
          refine completesAt_advance_bind (hinner.at_lt hlen hts.tail) ?_
          rintro _ ⟨us, _, rfl, ⟨ty, hty⟩, r, rfl, hr⟩
          exact ⟨ty, .paren hk hty hr⟩
      | _ =>
          refine completesAt_complain_bind (fun _ => ?_) fun hm => ?_
          · exact (moves_advance stepwise_grows).bind stepwise_grows fun _ => moves_pure stepwise_grows _
          · exact absurd ((mentionsEnd_expectedType_iff t).mp hm) hts.not_mentionsEnd

end

theorem completes_atomicTypes (hz : z.kind = .eof) : ∀ (n M : Nat), 8 * M + 2 ≤ n →
    Completes z M M (atomicTypes n) fun _ ts => ∃ tys, AreAtomicTypes ts tys
  | n + 1, 0, _ => .zero (moves_atomicTypes stepwise_grows _) fun _ => completable_self ⟨[], .nil⟩
  | n + 1, M + 1, hn => by
      have hatomic := completes_atomicType hz n M (by omega)
      have hatomics := completes_atomicTypes hz n M (by omega)
      rw [atomicTypes]
      refine completes_current_bind fun t => ?_
      split
      · refine Completes.mono (Completes.weaken (hatomic.bind fun t => hatomics.map (t :: ·)) le_rfl
          (Nat.le_succ M)) ?_
        rintro _ _ ⟨us, vs, rfl, ⟨t, ht⟩, tys, htys⟩
        exact ⟨_, .cons ht htys⟩
      · refine (completes_pure []).mono ?_
        rintro _ _ rfl
        exact ⟨[], .nil⟩

/-! ## Patterns -/

theorem completable_atomicPattern (Γ : CtorTable) :
    Completable (fun ts => ∃ p, IsAtomicPattern Γ ts p) [] := by
  refine (completable_keyword "true" .kwTrue (by decide)).mono ?_
  rintro _ ⟨t, ht, hk⟩
  rw [ht]
  exact ⟨_, .true hk⟩

theorem completesAt_badPattern {Γ : CtorTable} {t : Token} {ts : List Token} (hts : Ordinary (t :: ts))
    {L : List Token → Prop} : CompletesAt z (badPattern t) L Γ (t :: ts) := by
  refine completesAt_complain_bind (fun _ => moves_check_bind fun b => ?_) fun hm => ?_
  · split
    · exact (moves_advance stepwise_grows).bind stepwise_grows fun _ => moves_pure stepwise_grows _
    · exact moves_pure stepwise_grows _
  · exact absurd ((mentionsEnd_inPattern_iff t).mp hm) hts.not_mentionsEnd

mutual

theorem completes_pattern (hz : z.kind = .eof) : ∀ (n M : Nat), 8 * M + 2 ≤ n →
    Completes z M M (pattern n) fun Γ ts => ∃ p, IsPattern Γ ts p
  | n + 1, 0, _ => by
      refine .zero (moves_pattern stepwise_grows _) fun Γ => (completable_atomicPattern Γ).mono ?_
      rintro us ⟨p, hp⟩
      exact ⟨p, .atomic hp⟩
  | n + 1, M + 1, hn => by
      have hatomic : Completes z (M + 1) M (atomicPattern n) fun Γ ts => ∃ p, IsPattern Γ ts p :=
        (completes_atomicPattern hz n M (by omega)).mono fun _ _ ⟨p, hp⟩ => ⟨p, .atomic hp⟩
      have hatomics := completes_atomicPatterns hz n M (by omega)
      refine .of_ensures hz (moves_pattern stepwise_grows _) (ensures_pattern (n + 1))
        (fun _ p _ _ _ hp => ⟨p, hp⟩) hn hatomic.minimal fun Γ t ts hlen hts => ?_
      have hatomic : CompletesAt z (atomicPattern n) (fun us => ∃ p, IsPattern Γ us p) Γ (t :: ts) :=
        hatomic.at_lt (by simpa using hlen) hts
      rw [pattern]
      refine completesAt_current_bind ?_
      by_cases hk : t.kind = .ident
      · rw [if_pos hk]
        refine completesAt_ctor?_bind ?_
        cases hc : Γ.find? t.text with
        | none => exact hatomic
        | some c =>
            refine completesAt_advance_bind ((hatomics.map (Pattern.ctor t.pos c)).at_lt hlen hts.tail) ?_
            rintro us ⟨ps, hps⟩
            exact ⟨_, .ctor ⟨hk, hc⟩ hps⟩
      · rw [if_neg hk]
        exact hatomic

theorem completes_atomicPattern (hz : z.kind = .eof) : ∀ (n M : Nat), 8 * (M + 1) + 1 ≤ n →
    Completes z (M + 1) M (atomicPattern n) fun Γ ts => ∃ p, IsAtomicPattern Γ ts p
  | n + 1, M, hn => by
      refine Completes.shrink (N := M + 1) (.of_ensures hz (moves_atomicPattern stepwise_grows _)
        (ensures_atomicPattern (n + 1)) (fun _ p _ _ _ hp => ⟨p, hp⟩) hn completable_atomicPattern
        fun Γ t ts hlen hts => ?_) fun _ _ ⟨p, hp⟩ => hp.starts.length_pos
      rw [atomicPattern]
      refine completesAt_current_bind ?_
      cases hk : t.kind with
      | intLit =>
          have hdigits := (hts t List.mem_cons_self).2
          refine completesAt_advance_bind ?_ fun _ => id
          exact completesAt_intLiteral_bind hdigits false (Pattern.int t.pos)
      | minus => exact completesAt_negated hz hts (Pattern.int t.pos) (completesAt_badPattern hts)
      | kwTrue => exact completesAt_of_yields ((yields_advance t _).bind (yields_pure _ _))
      | kwFalse => exact completesAt_of_yields ((yields_advance t _).bind (yields_pure _ _))
      | ident =>
          refine completesAt_advance_bind (completesAt_ctor?_bind ?_) fun _ => id
          cases Γ.find? t.text with
          | none => exact completesAt_of_yields (yields_pure _ _)
          | some c => exact completesAt_of_yields (yields_pure _ _)
      | lparen =>
          have hinner := (completes_pattern hz n M (by omega)).bind fun p =>
            (completes_symbol hz ")" .rparen (by decide)).keep.map fun _ => p
          refine completesAt_advance_bind (hinner.at_lt hlen hts.tail) ?_
          rintro _ ⟨us, _, rfl, ⟨p, hp⟩, r, rfl, hr⟩
          exact ⟨p, .paren hk hp hr⟩
      | _ => exact completesAt_badPattern hts

theorem completes_atomicPatterns (hz : z.kind = .eof) : ∀ (n M : Nat), 8 * M + 2 ≤ n →
    Completes z M M (atomicPatterns n) fun Γ ts => ∃ ps, AreAtomicPatterns Γ ts ps
  | n + 1, 0, _ => .zero (moves_atomicPatterns stepwise_grows _) fun _ => completable_self ⟨[], .nil⟩
  | n + 1, M + 1, hn => by
      have hatomic := completes_atomicPattern hz n M (by omega)
      have hatomics := completes_atomicPatterns hz n M (by omega)
      rw [atomicPatterns]
      refine completes_current_bind fun t => ?_
      split
      · refine Completes.mono (Completes.weaken (hatomic.bind fun p => hatomics.map (p :: ·)) le_rfl
          (Nat.le_succ M)) ?_
        rintro _ _ ⟨us, vs, rfl, ⟨p, hp⟩, ps, hps⟩
        exact ⟨_, .cons hp hps⟩
      · refine (completes_pure []).mono ?_
        rintro _ _ rfl
        exact ⟨[], .nil⟩

end

/-! ## Expressions -/

section Phrases

variable {Γ : CtorTable}

/-- What may stand behind an operand: operators from the level `min` on, with their right operands. -/
def IsTail (Γ : CtorTable) (min : Nat) (us : List Token) : Prop :=
  ∀ ts k l, min ≤ k → k ≤ 4 → level (nextKind us) ≤ k → IsBinary Γ false k ts l →
    ∃ e, IsBinary Γ false min (ts ++ us) e

theorem isTail_nil (min : Nat) : IsTail Γ min [] := by
  intro ts k l hk _ _ hl
  rw [List.append_nil]
  exact ⟨l, hl.weaken hk⟩

theorem IsTail.cons {min : Nat} {o : Token} {us vs : List Token} {r : Expr} (hlevel : level o.kind ≠ 0)
    (hmin : min ≤ level o.kind) (hr : IsBinary Γ false (level o.kind + 1) us r) (hvs : IsTail Γ min vs)
    (hnext : level (nextKind vs) ≤ level o.kind) : IsTail Γ min (o :: (us ++ vs)) := by
  intro ts k l hk hk' hk'' hl
  have hjoined := IsBinary.op (hl.weaken hk'') (isOperator_of_level hlevel) hr
  obtain ⟨e, he⟩ := hvs _ _ _ hmin (level_lt_four _).le hnext hjoined
  exact ⟨e, by simpa using he⟩

theorem completable_head (Γ : CtorTable) : Completable (fun ts => ∃ e, IsHead Γ false ts e) [] := by
  refine (completable_keyword "true" .kwTrue (by decide)).mono ?_
  rintro _ ⟨t, ht, hk⟩
  rw [ht]
  exact ⟨_, .atom (.true hk)⟩

theorem completable_binary (Γ : CtorTable) {min : Nat} (hmin : min ≤ 4) :
    Completable (fun ts => ∃ e, IsBinary Γ false min ts e) [] := by
  refine (completable_head Γ).mono ?_
  rintro us ⟨e, he⟩
  exact ⟨e, (IsBinary.application (.head he)).weaken hmin⟩

theorem completable_expr (Γ : CtorTable) : Completable (fun ts => ∃ e o, IsExpr Γ false ts e o) [] := by
  refine (completable_binary Γ (by decide : 1 ≤ 4)).mono ?_
  rintro us ⟨e, he⟩
  exact ⟨e, false, .binary he⟩

theorem completesAt_badAtom {t : Token} {ts : List Token} (hts : Ordinary (t :: ts))
    {L : List Token → Prop} : CompletesAt z (badAtom t) L Γ (t :: ts) := by
  refine completesAt_complain_bind (fun _ => moves_check_bind fun b => ?_) fun hm => ?_
  · split
    · exact (moves_advance stepwise_grows).bind stepwise_grows fun _ => moves_pure stepwise_grows _
    · exact moves_pure stepwise_grows _
  · exact absurd ((mentionsEnd_inExpression_iff t).mp hm) hts.not_mentionsEnd

end Phrases

mutual

theorem completes_expr (hz : z.kind = .eof) : ∀ (n M : Nat), 8 * M + 4 ≤ n →
    Completes z M M (expr n) fun Γ ts => ∃ e o, IsExpr Γ false ts e o
  | n + 1, 0, _ => .zero (moves_expr stepwise_grows _) completable_expr
  | n + 1, M + 1, hn => by
      have hexpr := completes_expr hz n M (by omega)
      refine .of_ensures hz (moves_expr stepwise_grows _) (ensures_expr false (n + 1))
        (fun _ e _ _ _ ⟨o, he, _⟩ => ⟨e, o, he⟩) hn completable_expr fun Γ t ts hlen hts => ?_
      have hfunction (ht : StartsFunction t.kind) :
          CompletesAt z (do
            let t ← advance
            let param ← binderName
            let _ ← expect .arrow
            let body ← expr n
            return Expr.fn t.pos param body) (fun us => ∃ e o, IsExpr Γ false us e o) Γ (t :: ts) := by
        have hrest := (completes_binderName hz).keep.bind fun param =>
          (completes_symbol hz "->" .arrow (by decide)).keep.bind fun _ => hexpr.map (Expr.fn t.pos param)
        refine completesAt_advance_bind (hrest.at_lt hlen hts.tail) ?_
        rintro _ ⟨_, _, rfl, ⟨x, rfl, hx⟩, _, us, rfl, ⟨a, rfl, ha⟩, body, o, hbody⟩
        exact ⟨_, o, .fn ht hx ha hbody⟩
      rw [expr]
      refine completesAt_current_bind ?_
      cases hk : t.kind with
      | kwLet =>
          have hrest := (completes_binderName hz).keep.bind fun name =>
            (completes_symbol hz "=" .assign (by decide)).keep.bind fun _ => hexpr.bind fun bound =>
              (completes_keyword hz "in" .kwIn (by decide)).keep.bind fun _ =>
                hexpr.map (Expr.letIn t.pos name bound)
          refine completesAt_expect_bind hk (hrest.at_lt hlen hts.tail) ?_
          rintro _ ⟨_, _, rfl, ⟨x, rfl, hx⟩, _, _, rfl, ⟨a, rfl, ha⟩, us, _, rfl, ⟨bound, o, hbound⟩,
            _, vs, rfl, ⟨i, rfl, hi⟩, body, o', hbody⟩
          exact ⟨_, o', .letIn hk hx ha hbound hi hbody⟩
      | lambda => exact hfunction (hk ▸ .lambda)
      | kwFun => exact hfunction (hk ▸ .word)
      | kwIf =>
          have hrest := hexpr.bind fun test =>
            (completes_keyword hz "then" .kwThen (by decide)).keep.bind fun _ => hexpr.bind fun yes =>
              (completes_keyword hz "else" .kwElse (by decide)).keep.bind fun _ =>
                hexpr.map (Expr.cond t.pos test yes)
          refine completesAt_expect_bind hk (hrest.at_lt hlen hts.tail) ?_
          rintro _ ⟨us, _, rfl, ⟨test, o, htest⟩, _, _, rfl, ⟨i, rfl, hi⟩, vs, _, rfl, ⟨yes, o', hyes⟩,
            _, ws, rfl, ⟨j, rfl, hj⟩, no, o'', hno⟩
          exact ⟨_, o'', .cond hk htest hi hyes hj hno⟩
      | kwCase =>
          have halts := completes_alternatives hz n M (by omega)
          have hrest := hexpr.bind fun scrutinee =>
            (completes_keyword hz "of" .kwOf (by decide)).keep.bind fun _ =>
              completes_accept_bind (k := .bar)
                (g := fun _ => do return Expr.cases t.pos scrutinee (← alternatives n)) hz (by simp)
                (halts.map _) (halts.map _)
          refine completesAt_expect_bind hk (hrest.at_lt hlen hts.tail) ?_
          rintro _ ⟨us, _, rfl, ⟨e, o, he⟩, _, vs, rfl, ⟨f, rfl, hf⟩, ⟨alts, halts⟩ |
            ⟨_, vs, rfl, ⟨b, rfl, hb⟩, alts, halts⟩⟩
          · exact ⟨_, true, .cases hk he hf .none halts⟩
          · have hcase := IsExpr.cases hk he hf (.bar hb) halts
            exact ⟨_, true, hcase⟩
      | _ =>
          -- no token has been taken yet, so that the operands get all of them
          have hbinary := completes_binary hz n 1 (M + 1) (by simp) (by simp) (by omega)
          intro hend hdiags
          refine (hbinary.at_lt (by simpa using hlen) hts hend hdiags).mono ?_
          rintro us ⟨e, he⟩
          exact ⟨e, false, .binary he⟩

theorem completes_alternatives (hz : z.kind = .eof) : ∀ (n M : Nat), 8 * M + 3 ≤ n →
    Completes z M M (alternatives n) fun Γ ts => ∃ alts, AreAlts Γ false ts alts
  | n + 1, 0, _ => by
      refine .zero (moves_alternatives stepwise_grows _) fun Γ => ?_
      have harrow := completable_symbol "->" .arrow (by decide)
      refine ((completable_atomicPattern Γ).append (harrow.append (completable_expr Γ))).mono ?_
      rintro _ ⟨us, _, h, ⟨p, hp⟩, _, vs, rfl, ⟨a, rfl, ha⟩, e, o, he⟩
      obtain ⟨t, us, rfl, -⟩ := hp.starts
      rw [h]
      exact ⟨_, .one (.atomic hp) ha he⟩
  | n + 1, M + 1, hn => by
      have hpattern := completes_pattern hz n (M + 1) (by omega)
      have hexpr := completes_expr hz n M (by omega)
      have halts := completes_alternatives hz n M (by omega)
      rw [alternatives]
      refine completes_current_bind fun t => ?_
      refine Completes.mono (Completes.weaken (hpattern.bind fun p =>
        (completes_symbol hz "->" .arrow (by decide)).bind fun _ => hexpr.bind fun body =>
          completes_accept_bind hz (by simp) (halts.map (Alt.mk t.pos p body :: ·))
            (completes_pure [Alt.mk t.pos p body])) le_rfl (Nat.le_succ M)) ?_
      rintro Γ _ ⟨us, _, rfl, ⟨p, hp⟩, _, _, rfl, ⟨a, rfl, ha⟩, vs, _, rfl, ⟨body, o, hbody⟩,
        rfl | ⟨_, ws, rfl, ⟨b, rfl, hb⟩, alts, halts⟩⟩
      · obtain ⟨t, us, rfl, -⟩ := hp.starts
        rw [List.append_nil]
        exact ⟨_, .one hp ha hbody⟩
      · obtain ⟨t, us, rfl, -⟩ := hp.starts
        exact ⟨_, .cons hp ha hbody (by simp) hb halts⟩

theorem completes_binary (hz : z.kind = .eof) : ∀ (n min M : Nat), 1 ≤ min → min ≤ 4 → 8 * M + 3 ≤ n →
    Completes z M M (binary n min) fun Γ ts => ∃ e, IsBinary Γ false min ts e
  | n + 1, min, 0, _, hmin', _ =>
      .zero (moves_binary stepwise_grows _ _) fun Γ => completable_binary Γ hmin'
  | n + 1, min, M + 1, hmin, hmin', hn => by
      have happlication := completes_application hz n (M + 1) (by omega)
      refine .of_ensures hz (moves_binary stepwise_grows _ _) (ensures_binary false (n + 1) min)
        (fun _ e _ _ _ he => ⟨e, (he hmin hmin').1⟩) hn (fun Γ => completable_binary Γ hmin')
        fun Γ t ts hlen hts => ?_
      have hlen : (t :: ts).length < M + 1 := by simpa using hlen
      rw [binary]
      refine CompletesAt.bind happlication.grows (fun _ => moves_operators stepwise_grows _ _ _) ?_ ?_
      · intro hend hdiags
        refine (happlication.at_lt hlen hts hend hdiags).mono ?_
        rintro us ⟨e, he⟩
        exact ⟨e, (IsBinary.application he).weaken hmin'⟩
      · intro left Γ' rest hfirst hend hdiags
        obtain ⟨rfl, us, ws, hus, rfl, hws, e, he⟩ := happlication.reads hlen hfirst
        rw [hus] at hts ⊢
        have htail := completesAt_operators hz n min left (M + 1) hmin (by omega) hws hts.of_append_right
          hend hdiags
        refine htail.mono fun vs hvs => ?_
        rw [List.append_assoc]
        exact hvs us 4 e hmin' le_rfl (level_lt_four _).le (.application he)

/-- What is missing behind an operator is its right operand. -/
theorem completesAt_operators (hz : z.kind = .eof) : ∀ (n min : Nat) (left : Expr) (M : Nat), 1 ≤ min →
    8 * M + 1 ≤ n → ∀ {Γ : CtorTable} {ts : List Token}, ts.length < M → Ordinary ts →
      CompletesAt z (operators n min left) (IsTail Γ min) Γ ts
  | n + 1, min, left, M, _, _, Γ, [], _, _ => fun _ _ => completable_self (isTail_nil min)
  | n + 1, min, left, M + 1, hmin, hn, Γ, t :: ts, hlen, hts => by
      have hlen : ts.length < M := by simpa using hlen
      rw [operators]
      refine completesAt_current_bind ?_
      show CompletesAt z (if level t.kind = 0 ∨ level t.kind < min then pure left else _) _ Γ (t :: ts)
      by_cases hstop : level t.kind = 0 ∨ level t.kind < min
      · rw [if_pos hstop]
        exact completesAt_of_yields (yields_pure left _)
      · rw [if_neg hstop]
        obtain ⟨hlevel, hle⟩ : level t.kind ≠ 0 ∧ min ≤ level t.kind := by omega
        have hbinary := completes_binary hz n (level t.kind + 1) M (by omega) (level_lt_four _) (by omega)
        refine completesAt_advance_bind (R := fun us => IsTail Γ min (t :: us)) ?_ fun _ => id
        refine CompletesAt.bind hbinary.grows (fun _ => moves_operators stepwise_grows _ _ _) ?_ ?_
        · -- the input ends within the right operand, which is then the last one
          intro hend hdiags
          refine (hbinary.at_lt hlen hts.tail hend hdiags).mono ?_
          rintro us ⟨r, hr⟩
          have htail := IsTail.cons hlevel hle hr (isTail_nil min) (Nat.zero_le _)
          rwa [List.append_nil] at htail
        · intro right Γ' rest hfirst hend hdiags
          obtain ⟨rfl, us, ws, rfl, rfl, hread⟩ :=
            hfirst.exists_append hz (ensures_binary false n _ _) (by omega)
          obtain ⟨hright, hnext⟩ := hread (by omega) (level_lt_four _)
          rw [State.kind_current_before] at hnext
          cases ws with
          | nil =>
              -- the input ends behind the right operand, where nothing is reported
              have hstop : level (nextKind [z]) < min := by
                rw [nextKind_cons, hz]
                exact hmin
              have hnothing (e : Expr) : CompletesAt z (operators n min e) (fun _ => False) Γ' [] :=
                completesAt_of_yields (yields_operators_of_lt hstop n e)
              exact (hnothing _ hend hdiags).mono fun _ => False.elim
          | cons u ws =>
              rw [List.length_append] at hlen
              have htail := completesAt_operators hz n min _ M hmin (by omega) (by omega)
                hts.tail.of_append_right hend hdiags
              refine htail.mono fun vs hvs => ?_
              rw [List.append_assoc]
              exact .cons hlevel hle hright hvs (Nat.lt_succ_iff.mp hnext)

theorem completes_application (hz : z.kind = .eof) : ∀ (n M : Nat), 8 * M + 2 ≤ n →
    Completes z M M (application n) fun Γ ts => ∃ e, IsApplication Γ false ts e
  | n + 1, 0, _ => by
      refine .zero (moves_application stepwise_grows _) fun Γ => (completable_head Γ).mono ?_
      rintro us ⟨e, he⟩
      exact ⟨e, .head he⟩
  | n + 1, M + 1, hn => by
      have hatom := completes_atom hz n M (by omega)
      have hatoms := completes_atoms hz n M (by omega)
      rw [application]
      have harguments (func : Expr) : Completes z M M (do
          if startsAtom (← current).kind then return Expr.app func.pos func (← atoms n)
          else return func) fun Γ ts => ∃ as, AreAtoms Γ false ts as := by
        refine completes_current_bind fun t => ?_
        split
        · exact hatoms.map _
        · refine (completes_pure func).mono ?_
          rintro _ _ rfl
          exact ⟨[], .nil⟩
      refine Completes.mono (Completes.weaken (hatom.bind harguments) le_rfl (Nat.le_succ M)) ?_
      rintro _ _ ⟨us, vs, rfl, ⟨f, hf⟩, as, has⟩
      cases has with
      | nil =>
          rw [List.append_nil]
          exact ⟨f, .head hf⟩
      | cons ha has => exact ⟨_, .app hf (.cons ha has)⟩

theorem completes_atoms (hz : z.kind = .eof) : ∀ (n M : Nat), 8 * M + 2 ≤ n →
    Completes z M M (atoms n) fun Γ ts => ∃ as, AreAtoms Γ false ts as
  | n + 1, 0, _ => .zero (moves_atoms stepwise_grows _) fun _ => completable_self ⟨[], .nil⟩
  | n + 1, M + 1, hn => by
      have hatom := completes_atom hz n M (by omega)
      have hatoms := completes_atoms hz n M (by omega)
      refine .of_ensures hz (moves_atoms stepwise_grows _) (ensures_atoms false (n + 1))
        (fun _ as _ _ _ has => ⟨as, has.1⟩) hn (fun _ => completable_self ⟨[], .nil⟩)
        fun Γ t ts hlen hts => ?_
      rw [atoms]
      refine completesAt_current_bind ?_
      by_cases hstart : startsAtom t.kind = true
      · rw [if_pos hstart]
        intro hend hdiags
        refine ((hatom.bind fun a => hatoms.map (a :: ·)).at_lt (by simpa using hlen) hts hend
          hdiags).mono ?_
        rintro us ⟨vs, ws, hvs, ⟨a, ha⟩, as, has⟩
        rw [hvs]
        obtain ⟨t', vs, rfl, -⟩ := ha.starts
        obtain ⟨rfl, -⟩ : t = t' ∧ _ := by simpa using hvs
        exact ⟨_, .cons (ha.isAtom hstart) has⟩
      · rw [if_neg hstart]
        exact completesAt_of_yields (yields_pure _ _)

theorem completes_atom (hz : z.kind = .eof) : ∀ (n M : Nat), 8 * (M + 1) + 1 ≤ n →
    Completes z (M + 1) M (atom n) fun Γ ts => ∃ e, IsHead Γ false ts e
  | n + 1, M, hn => by
      refine Completes.shrink (N := M + 1) (.of_ensures hz (moves_atom stepwise_grows _)
        (ensures_atom false (n + 1)) (fun _ e _ _ _ he => ⟨e, he.1⟩) hn completable_head
        fun Γ t ts hlen hts => ?_) fun _ _ ⟨e, he⟩ => he.starts.length_pos
      rw [atom]
      refine completesAt_current_bind ?_
      cases hk : t.kind with
      | intLit =>
          have hdigits := (hts t List.mem_cons_self).2
          refine completesAt_advance_bind ?_ fun _ => id
          exact completesAt_intLiteral_bind hdigits false (Expr.int t.pos)
      | minus => exact completesAt_negated hz hts (Expr.int t.pos) (completesAt_badAtom hts)
      | kwTrue => exact completesAt_of_yields ((yields_advance t _).bind (yields_pure _ _))
      | kwFalse => exact completesAt_of_yields ((yields_advance t _).bind (yields_pure _ _))
      | ident =>
          refine completesAt_advance_bind (completesAt_ctor?_bind ?_) fun _ => id
          cases Γ.find? t.text with
          | none => exact completesAt_of_yields (yields_pure _ _)
          | some c => exact completesAt_of_yields (yields_pure _ _)
      | lparen =>
          have htype := completes_type hz n M (by omega)
          have hclose (e : Expr) := (completes_symbol hz ")" .rparen (by decide)).keep.map (M := M) fun _ => e
          have hinner := (completes_expr hz n M (by omega)).bind fun e => completes_check_bind (k := .colon)
            hz (by simp) (fun c => htype.bind fun ty => hclose (.annot c.pos e ty)) (hclose e)
          refine completesAt_advance_bind (hinner.at_lt hlen hts.tail) ?_
          rintro _ ⟨us, _, rfl, ⟨e, o, he⟩, ⟨r, rfl, hr⟩ |
            ⟨_, _, rfl, ⟨c, rfl, hc⟩, vs, _, rfl, ⟨ty, hty⟩, r, rfl, hr⟩⟩
          · exact ⟨e, .atom (.paren hk he hr)⟩
          · exact ⟨_, .atom (.annot hk he hc hty hr)⟩
      | _ => exact completesAt_badAtom hts

end

end FunLang.Parser
