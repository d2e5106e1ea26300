import FunLang.Proofs.Parser.Sound.Patterns

set_option autoImplicit false

/-!
# Expressions that are read without a message

The tokens that a parser has passed over without a message stand for the expression it returns, in the
reading in which every alternative belongs to the innermost open `case`. For operators the parser keeps
up that the next operator binds no tighter than what it has read so far (`ensures_operators`): this is
why what it builds from left to right respects the levels.
-/

namespace FunLang.Parser

open Grammar

variable {T : Tolerance}

/-! ## Operators and names -/

theorem isOperator_of_level {k : TokenKind} (h : level k ≠ 0) : IsOperator (level k) k (.ofKind k) := by
  cases k with
  | lt => exact .lt
  | gt => exact .gt
  | leq => exact .le
  | geq => exact .ge
  | plus => exact .add
  | minus => exact .sub
  | star => exact .mul
  | _ => exact absurd rfl h

theorem level_lt_four (k : TokenKind) : level k < 4 := by
  cases k <;> decide

theorem ensures_badAtom (t : Token) (s : State) : Ensures T (badAtom t) s fun _ _ => False := by
  unfold badAtom
  refine (ensures_complain _ (by simp [IsComplaint, toString]) s).bind fun _ s₁ => ensures_check_bind ?_
  split
  · exact (ensures_advance s₁).bind fun _ _ => ensures_pure fun _ => False.elim
  · exact ensures_pure False.elim

theorem ensures_binderName (s : State) : Ensures T binderName s fun x s' =>
    ∃ t, Reads s [t] s' ∧ IsVariable s.ctors t ∧ x = t.text := by
  unfold binderName
  refine (ensures_expect (by simp) s).bind fun t s₁ => ?_
  split
  · rename_i hk
    exact ensures_pure fun ht => absurd ht.1 hk
  · refine ensures_ctor?_bind ?_
    split
    · refine (ensures_complain _ (by simp [IsComplaint, toString]) s₁).bind fun _ _ => ensures_pure False.elim
    · rename_i hc
      refine ensures_pure ?_
      rintro ⟨ht, hread⟩
      refine ⟨t, hread, ⟨ht, ?_⟩, rfl⟩
      rw [← hread.ctors]
      simpa using hc

/-! ## Expressions -/

variable (innermost : Bool)

mutual

theorem ensures_expr : ∀ (n : Nat) (s : State), Ensures T (expr n) s fun e s' =>
    Phrase n 4 s s' fun Γ ts => ∃ o, IsExpr Γ innermost ts e o ∧ (o = true → s'.current.kind ≠ .bar)
  | 0, s => ensures_pure fun h => absurd h (by omega)
  | n + 1, s => by
      rw [expr]
      refine ensures_current_bind ?_
      -- a function is read in the same way whichever of the two tokens it starts with
      have hfunction (hf : StartsFunction s.current.kind) :
          Ensures T (do
            let t ← advance
            let param ← binderName
            let _ ← expect .arrow
            let body ← expr n
            return .fn t.pos param body) s fun e s' => Phrase (n + 1) 4 s s' fun Γ ts =>
              ∃ o, IsExpr Γ innermost ts e o ∧ (o = true → s'.current.kind ≠ .bar) := by
        refine (ensures_advance_of_ne hf.ne_eof).bind fun f s₁ => ?_
        refine (ensures_binderName s₁).bind fun x s₂ => ?_
        refine (ensures_expect (by simp) s₂).bind fun a s₃ => ?_
        refine (ensures_expr n s₃).bind fun body s₄ => ensures_pure ?_
        rintro hbody ⟨ha, hra⟩ ⟨t, hrt, ht, rfl⟩ ⟨rfl, hrf⟩ hn
        obtain ⟨ts, hts, o, hbody, ho⟩ := hbody.after (hrf.trans (hrt.trans hra)) (by simp) hn (by simp)
        exact ⟨_, hts, o, .fn hf (hrf.ctors ▸ ht) ha hbody, ho⟩
      split
      · -- a `let`
        refine (ensures_expect (by simp) s).bind fun l s₁ => ?_
        refine (ensures_binderName s₁).bind fun x s₂ => ?_
        refine (ensures_expect (by simp) s₂).bind fun a s₃ => ?_
        refine (ensures_expr n s₃).bind fun bound s₄ => ?_
        refine (ensures_expect (by simp) s₄).bind fun i s₅ => ?_
        refine (ensures_expr n s₅).bind fun body s₆ => ensures_pure ?_
        rintro hbody ⟨hi, hri⟩ hbound ⟨ha, hra⟩ ⟨t, hrt, ht, rfl⟩ ⟨hl, hrl⟩ hn
        obtain ⟨ts, hts, o, hbound, -⟩ := hbound.after (hrl.trans (hrt.trans hra)) (by simp) hn (by simp)
        obtain ⟨us, hus, o', hbody, ho⟩ := hbody.after (hts.trans hri) (by simp) hn (by simp)
        refine ⟨_, ?_, o', .letIn hl (hrl.ctors ▸ ht) ha hbound hi hbody, ho⟩
        simpa using hus
      · rename_i hk
        exact hfunction (hk ▸ .lambda)
      · rename_i hk
        exact hfunction (hk ▸ .word)
      · -- an `if`
        refine (ensures_expect (by simp) s).bind fun i s₁ => ?_
        refine (ensures_expr n s₁).bind fun test s₂ => ?_
        refine (ensures_expect (by simp) s₂).bind fun t s₃ => ?_
        refine (ensures_expr n s₃).bind fun yes s₄ => ?_
        refine (ensures_expect (by simp) s₄).bind fun e s₅ => ?_
        refine (ensures_expr n s₅).bind fun no s₆ => ensures_pure ?_
        rintro hno ⟨he, hre⟩ hyes ⟨ht, hrt⟩ htest ⟨hi, hri⟩ hn
        obtain ⟨ts, hts, o, htest, -⟩ := htest.after hri (by simp) hn (by simp)
        obtain ⟨us, hus, o', hyes, -⟩ := hyes.after (hts.trans hrt) (by simp) hn (by simp)
        obtain ⟨vs, hvs, o'', hno, ho⟩ := hno.after (hus.trans hre) (by simp) hn (by simp)
        refine ⟨_, ?_, o'', .cond hi htest ht hyes he hno, ho⟩
        simpa using hvs
      · -- a `case`: the alternatives stop short of a bar, so that it is the innermost open one
        refine (ensures_expect (by simp) s).bind fun c s₁ => ?_
        refine (ensures_expr n s₁).bind fun scrutinee s₂ => ?_
        refine (ensures_expect (by simp) s₂).bind fun f s₃ => ?_
        refine (ensures_accept (by simp) s₃).bind fun b s₄ => ?_
        refine (ensures_alternatives n s₄).bind fun alts s₅ => ensures_pure ?_
        rintro halts hbar ⟨hf, hrf⟩ hs ⟨hc, hrc⟩ hn
        obtain ⟨ts, hts, o, hs, -⟩ := hs.after hrc (by simp) hn (by simp)
        obtain ⟨bs, hbs, hrb⟩ : ∃ bs, IsOptionalBar bs ∧ Reads s₃ bs s₄ := by
          rcases hbar with ⟨-, b, hb, hrb⟩ | ⟨-, -, rfl⟩
          · exact ⟨[b], .bar hb, hrb⟩
          · exact ⟨[], .none, .refl s₄⟩
        obtain ⟨us, hus, halts, hnext⟩ := halts.after ((hts.trans hrf).trans hrb) (by simp) hn (by simp)
        refine ⟨_, ?_, true, .cases hc hs hf hbs halts, fun _ => hnext⟩
        simpa using hus
      · refine (ensures_binary n 1 s).mono fun e s' h hn => ?_
        obtain ⟨ts, hts, he⟩ := h.first hn (by simp)
        exact ⟨ts, hts, false, .binary (he (by simp) (by simp)).1, by simp⟩

theorem ensures_alternatives : ∀ (n : Nat) (s : State), Ensures T (alternatives n) s fun alts s' =>
    Phrase n 3 s s' fun Γ ts => AreAlts Γ innermost ts alts ∧ s'.current.kind ≠ .bar
  | 0, s => ensures_pure fun h => absurd h (by omega)
  | n + 1, s => by
      rw [alternatives]
      refine ensures_current_bind ?_
      refine (ensures_pattern n s).bind fun p s₁ => ?_
      refine (ensures_expect (by simp) s₁).bind fun a s₂ => ?_
      refine (ensures_expr n s₂).bind fun body s₃ => ?_
      refine (ensures_accept (by simp) s₃).bind fun b s₄ => ?_
      split
      · rename_i hb
        refine (ensures_alternatives n s₄).bind fun alts s₅ => ensures_pure ?_
        rintro halts hbar hbody ⟨ha, hra⟩ hp hn
        obtain ⟨bar, hbar, hrb⟩ : ∃ t, t.kind = .bar ∧ Reads s₃ [t] s₄ := by simpa [hb] using hbar
        obtain ⟨ts, hts, hp⟩ := hp.first hn (by simp)
        obtain ⟨us, hus, o, hbody, ho⟩ := hbody.after (hts.trans hra) (by simp) hn (by simp)
        obtain ⟨vs, hvs, halts, hnext⟩ := halts.after (hus.trans hrb) (by simp) hn (by simp)
        -- a bar comes next, so that the body ends with no open `case`
        obtain rfl : o = false := by
          by_contra h
          exact ho (by simpa using h) (hrb.current_eq ▸ hbar)
        obtain ⟨t, ts', rfl, -⟩ := hp.starts
        rw [hts.current_eq]
        refine ⟨_, ?_, .cons hp ha hbody (fun _ => rfl) hbar halts, hnext⟩
        simpa using hvs
      · rename_i hb
        refine ensures_pure ?_
        rintro hbar hbody ⟨ha, hra⟩ hp hn
        obtain ⟨hnext, rfl⟩ : s₃.current.kind ≠ .bar ∧ s₄ = s₃ := by simpa [hb] using hbar
        obtain ⟨ts, hts, hp⟩ := hp.first hn (by simp)
        obtain ⟨us, hus, o, hbody, -⟩ := hbody.after (hts.trans hra) (by simp) hn (by simp)
        obtain ⟨t, ts', rfl, -⟩ := hp.starts
        rw [hts.current_eq]
        refine ⟨_, ?_, .one hp ha hbody, hnext⟩
        simpa using hus

theorem ensures_binary : ∀ (n min : Nat) (s : State), Ensures T (binary n min) s fun e s' =>
    Phrase n 3 s s' fun Γ ts => 1 ≤ min → min ≤ 4 → IsBinary Γ innermost min ts e ∧
      level s'.current.kind < min
  | 0, _, s => ensures_pure fun h => absurd h (by omega)
  | n + 1, min, s => by
      rw [binary]
      refine (ensures_application n s).bind fun l s₁ => ?_
      refine (ensures_operators n min l s₁).mono fun e s₂ he hl hn => ?_
      obtain ⟨ts, hts, hl⟩ := hl.first hn (by simp)
      obtain ⟨us, hus, he⟩ := he.after hts hl.starts.length_pos hn (by simp)
      refine ⟨_, hus, fun hmin hmin' => he hmin ts 4 hmin' le_rfl (.application hl) ?_⟩
      exact (level_lt_four _).le

/-- Operators are joined to what stands at a level `k`, as long as the next one is no tighter. -/
theorem ensures_operators : ∀ (n min : Nat) (left : Expr) (s : State),
    Ensures T (operators n min left) s fun e s' =>
      Phrase n 1 s s' fun Γ ts => 1 ≤ min → ∀ ts₀ k, min ≤ k → k ≤ 4 → IsBinary Γ innermost k ts₀ left →
        level s.current.kind ≤ k → IsBinary Γ innermost min (ts₀ ++ ts) e ∧ level s'.current.kind < min
  | 0, _, _, s => ensures_pure fun h => absurd h (by omega)
  | n + 1, min, left, s => by
      rw [operators]
      refine ensures_current_bind ?_
      show Ensures T (if level s.current.kind = 0 ∨ level s.current.kind < min then pure left else _) s _
      split
      · rename_i hstop
        refine ensures_pure fun _ => ⟨[], .refl s, fun hmin ts₀ k hk _ hleft _ => ?_⟩
        rw [List.append_nil]
        exact ⟨hleft.weaken hk, by omega⟩
      · rename_i hgo
        obtain ⟨hlevel, hle⟩ : level s.current.kind ≠ 0 ∧ min ≤ level s.current.kind := by omega
        have hop := isOperator_of_level hlevel
        have heof : s.current.kind ≠ .eof := fun h => hlevel (by rw [h]; rfl)
        refine (ensures_advance_of_ne heof).bind fun op s₁ => ?_
        refine (ensures_binary n (level s.current.kind + 1) s₁).bind fun right s₂ => ?_
        refine (ensures_operators n min _ s₂).mono ?_
        rintro e s₃ he hright ⟨rfl, hrop⟩ hn
        obtain ⟨us, hus, hright⟩ := hright.after hrop (by simp) hn (by simp)
        obtain ⟨vs, hvs, he⟩ := he.after hus (by simp) hn (by simp)
        refine ⟨_, hvs, fun hmin ts₀ k hk hk' hleft hnext => ?_⟩
        obtain ⟨hright, hnext'⟩ := hright (by omega) (level_lt_four _)
        -- the operator is joined at its own level, and the next one is no tighter
        have hjoined := IsBinary.op (hleft.weaken hnext) hop hright
        simpa using he hmin _ _ hle (level_lt_four _).le hjoined (by omega)

theorem ensures_application : ∀ (n : Nat) (s : State), Ensures T (application n) s fun e s' =>
    Phrase n 2 s s' fun Γ ts => IsApplication Γ innermost ts e
  | 0, s => ensures_pure fun h => absurd h (by omega)
  | n + 1, s => by
      rw [application]
      refine (ensures_atom n s).bind fun f s₁ => ensures_current_bind ?_
      split
      · rename_i hstart
        refine (ensures_atoms n s₁).bind fun as s₂ => ensures_pure ?_
        rintro has hf hn
        obtain ⟨ts, hts, hf, -⟩ := hf.first hn (by simp)
        obtain ⟨us, hus, has, hne⟩ := has.after hts hf.starts.length_pos hn (by simp)
        cases as with
        | nil => exact absurd rfl (hne hstart)
        | cons a as => exact ⟨_, hus, .app hf has⟩
      · refine ensures_pure fun hf hn => ?_
        obtain ⟨ts, hts, hf, -⟩ := hf.first hn (by simp)
        exact ⟨ts, hts, .head hf⟩

theorem ensures_atoms : ∀ (n : Nat) (s : State), Ensures T (atoms n) s fun as s' =>
    Phrase n 2 s s' fun Γ ts => AreAtoms Γ innermost ts as ∧ (startsAtom s.current.kind = true → as ≠ [])
  | 0, s => ensures_pure fun h => absurd h (by omega)
  | n + 1, s => by
      rw [atoms]
      refine ensures_current_bind ?_
      split
      · rename_i hstart
        refine (ensures_atom n s).bind fun a s₁ => ?_
        refine (ensures_atoms n s₁).bind fun as s₂ => ensures_pure ?_
        rintro has ha hn
        obtain ⟨ts, hts, -, ha⟩ := ha.first hn (by simp)
        have ha := ha hstart
        obtain ⟨us, hus, has, -⟩ := has.after hts ha.starts.length_pos hn (by simp)
        exact ⟨_, hus, .cons ha has, by simp⟩
      · rename_i hstart
        exact ensures_pure fun _ => ⟨[], .refl s, .nil, fun h => absurd h hstart⟩

/-- Only a number may have a minus sign in front of it. -/
theorem ensures_atom : ∀ (n : Nat) (s : State), Ensures T (atom n) s fun e s' =>
    Phrase n 1 s s' fun Γ ts => IsHead Γ innermost ts e ∧
      (startsAtom s.current.kind = true → IsAtom Γ innermost ts e)
  | 0, s => ensures_pure fun h => absurd h (by omega)
  | n + 1, s => by
      rw [atom]
      refine ensures_current_bind ?_
      split
      · rename_i hk
        refine (ensures_advance_of_ne (by simp [hk])).bind fun t s₁ => ?_
        refine (ensures_intLiteral _ _ s₁).bind fun i s₂ => ensures_pure ?_
        rintro ⟨rfl, hi⟩ ⟨rfl, ht⟩ -
        exact ⟨_, ht, .atom (.int ⟨hk, hi⟩), fun _ => .int ⟨hk, hi⟩⟩
      · rename_i hk
        refine ensures_peek_bind ?_
        split
        · -- a minus sign cannot start an argument, so this is a head only
          rename_i hpeek
          refine (ensures_negated hk hpeek (Expr.int s.current.pos)).mono ?_
          rintro e s' ⟨t, i, hread, ht, rfl⟩ -
          exact ⟨_, hread, .negated hk ht, by simp [hk, startsAtom]⟩
        · exact (ensures_badAtom _ s).mono fun _ _ => False.elim
      · rename_i hk
        refine (ensures_advance_of_ne (by simp [hk])).bind fun t s₁ => ensures_pure ?_
        rintro ⟨rfl, ht⟩ -
        exact ⟨_, ht, .atom (.true hk), fun _ => .true hk⟩
      · rename_i hk
        refine (ensures_advance_of_ne (by simp [hk])).bind fun t s₁ => ensures_pure ?_
        rintro ⟨rfl, ht⟩ -
        exact ⟨_, ht, .atom (.false hk), fun _ => .false hk⟩
      · rename_i hk
        refine (ensures_advance_of_ne (by simp [hk])).bind fun t s₁ => ensures_ctor?_bind ?_
        -- the table alone tells a constructor from a variable
        split
        · rename_i c hc
          refine ensures_pure ?_
          rintro ⟨rfl, ht⟩ -
          have hctor : IsConstructor s.ctors s.current c := ⟨hk, ht.ctors ▸ hc⟩
          exact ⟨_, ht, .atom (.ctor hctor), fun _ => .ctor hctor⟩
        · rename_i hc
          refine ensures_pure ?_
          rintro ⟨rfl, ht⟩ -
          have hvar : IsVariable s.ctors s.current := ⟨hk, ht.ctors ▸ hc⟩
          exact ⟨_, ht, .atom (.var hvar), fun _ => .var hvar⟩
      · rename_i hk
        refine (ensures_advance_of_ne (by simp [hk])).bind fun l s₁ => ?_
        refine (ensures_expr n s₁).bind fun e s₂ => ensures_check_bind ?_
        split
        · rename_i hcolon
          have hcolon : s₂.current.kind = .colon := by simpa using hcolon
          refine (ensures_advance_of_ne (by simp [hcolon])).bind fun c s₃ => ?_
          refine (ensures_type n s₃).bind fun ty s₄ => ?_
          refine (ensures_expect (by simp) s₄).bind fun r s₅ => ensures_pure ?_
          rintro ⟨hr, hrr⟩ hty ⟨rfl, hrc⟩ he ⟨rfl, hrl⟩ hn
          obtain ⟨ts, hts, o, he, -⟩ := he.after hrl (by simp) hn (by simp)
          obtain ⟨us, hus, hty⟩ := hty.after (hts.trans hrc) (by simp) hn (by simp)
          have hatom := IsAtom.annot hk he hcolon hty hr
          exact ⟨_, by simpa using hus.trans hrr, .atom hatom, fun _ => hatom⟩
        · refine (ensures_expect (by simp) s₂).bind fun r s₃ => ensures_pure ?_
          rintro ⟨hr, hrr⟩ he ⟨rfl, hrl⟩ hn
          obtain ⟨ts, hts, o, he, -⟩ := he.after hrl (by simp) hn (by simp)
          have hatom := IsAtom.paren hk he hr
          exact ⟨_, hts.trans hrr, .atom hatom, fun _ => hatom⟩
      · exact (ensures_badAtom _ s).mono fun _ _ => False.elim

end

end FunLang.Parser
