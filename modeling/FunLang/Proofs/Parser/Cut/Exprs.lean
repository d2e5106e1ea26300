import FunLang.Proofs.Parser.Tracks

set_option autoImplicit false

/-!
# Expressions that are cut off

One theorem for each parser of types, patterns and expressions: on an input that is cut off it does the
same as on the whole input, or it runs into the end. The bounds on the depth of the calls are those that
suffice for the tokens that there are.
-/

namespace FunLang.Parser

open Grammar

variable {z : Token} {us : List Token}

/-! ## Types -/

mutual

theorem tracks_type (hz : z.kind = .eof) : ∀ (n n' M : Nat), n ≤ n' → 8 * M + 2 ≤ n →
    Tracks z us M M (type n) (type n')
  | n + 1, n' + 1, M, hnn', hn => by
      refine .of_cons hz (moves_type stepwise_grows _) (idles_type _) fun Γ t ts hts => ?_
      obtain ⟨K, rfl⟩ := Nat.exists_eq_add_one.mpr (hts.trans_lt' (Nat.zero_lt_succ _))
      have hatomic := tracks_atomicType hz n n' K (by omega) (by omega)
      have htype := tracks_type hz n n' K (by omega) (by omega)
      rw [type, type]
      refine (hatomic.at_le Γ (t :: ts) hts).bind hatomic.grows fun ty => ?_
      refine (tracks_check hz _).bind fun b => ?_
      cases b with
      | false => exact tracks_pure ty (by omega)
      | true =>
          refine (tracks_advance hz).keep.bind fun a => ?_
          exact htype.bind fun u => tracks_pure _ (by omega)

theorem tracks_atomicType (hz : z.kind = .eof) : ∀ (n n' M : Nat), n ≤ n' → 8 * (M + 1) + 1 ≤ n →
    Tracks z us (M + 1) M (atomicType n) (atomicType n')
  | n + 1, n' + 1, M, hnn', hn => by
      refine .of_cons hz (moves_atomicType stepwise_grows _) (idles_atomicType _) fun Γ t ts hts => ?_
      have hts : ts.length ≤ M := by simpa using hts
      have htype := tracks_type hz n n' M (by omega) (by omega)
      have hname : TracksAt z us M (do let _ ← advance; return Ty.name t.pos t.text)
          (do let _ ← advance; return Ty.name t.pos t.text) Γ (t :: ts) :=
        tracksAt_advance_bind (tracksAt_pure _ hts)
      rw [atomicType, atomicType]
      refine tracksAt_current_bind ?_
      cases hk : t.kind with
      | intType => exact hname
      | boolType => exact hname
      | ident => exact hname
      | lparen =>
          refine tracksAt_advance_bind (Tracks.at_le ?_ Γ ts hts)
          refine htype.bind fun ty => (tracks_expect hz (by simp)).keep.bind fun _ => ?_
          exact tracks_pure ty le_rfl
      | _ =>
          refine tracksAt_of_ensures ?_
          refine (ensures_complain _ (by simp [IsComplaint, toString]) _).bind fun _ s₁ => ?_
          exact (ensures_advance s₁).bind fun _ _ => ensures_pure fun _ => False.elim

end

theorem tracks_atomicTypes (hz : z.kind = .eof) : ∀ (n n' M : Nat), n ≤ n' → 8 * M + 2 ≤ n →
    Tracks z us M M (atomicTypes n) (atomicTypes n')
  | n + 1, n' + 1, M, hnn', hn => by
      refine .of_cons hz (moves_atomicTypes stepwise_grows _) (idles_atomicTypes _) fun Γ t ts hts => ?_
      obtain ⟨K, rfl⟩ := Nat.exists_eq_add_one.mpr (hts.trans_lt' (Nat.zero_lt_succ _))
      have hatomic : Tracks z us (K + 1) K (atomicType n) (atomicType n') :=
        tracks_atomicType hz n n' K (by omega) (by omega)
      have hatomics := tracks_atomicTypes hz n n' K (by omega) (by omega)
      rw [atomicTypes, atomicTypes]
      refine tracksAt_current_bind ?_
      by_cases hstart : startsAtomicType t.kind = true
      · rw [if_pos hstart, if_pos hstart]
        refine (hatomic.at_le Γ (t :: ts) hts).bind hatomic.grows fun ty => ?_
        exact hatomics.bind fun tys => tracks_pure _ (by omega)
      · rw [if_neg hstart, if_neg hstart]
        exact tracksAt_pure _ hts

/-! ## Patterns -/

/-- A minus sign and the digits after it, if they are not cut off from it. -/
theorem tracksAt_negated {α : Type} {Γ : CtorTable} {N : Nat} {m : Token} (hm : m.kind = .minus)
    {ts : List Token} (hts : ts.length ≤ N) (f : Int64 → α) {bad : Parser α}
    (hbad : ∀ s, Ensures .none bad s fun _ _ => False) :
    TracksAt z us N
      (peek >>= fun t => if t.kind = .intLit
        then (do let _ ← advance; let digits ← advance; return f (← intLiteral digits true)) else bad)
      (peek >>= fun t => if t.kind = .intLit
        then (do let _ ← advance; let digits ← advance; return f (← intLiteral digits true)) else bad)
      Γ (m :: ts) := by
  cases ts with
  | nil =>
      intro hsep a Γ' rest hyields
      have hnext : (State.before Γ ([m] ++ us)).peek.kind ≠ .intLit := hsep m rfl hm
      have hyields' : Yields bad (.before Γ ([m] ++ us)) a (.before Γ' rest) := by
        have hif : Yields (if (State.before Γ ([m] ++ us)).peek.kind = .intLit then _ else bad) _ a _ :=
          hyields
        rwa [if_neg hnext] at hif
      exact absurd (hyields'.of_ensures (hbad _)) id
  | cons t ts =>
      show TracksAt z us N (if t.kind = .intLit then _ else bad) (if t.kind = .intLit then _ else bad) Γ
        (m :: t :: ts)
      by_cases ht : t.kind = .intLit
      · rw [if_pos ht]
        rw [List.length_cons] at hts
        exact tracksAt_advance_bind (tracksAt_advance_bind
          (tracksAt_intLiteral_bind t true f (by omega)))
      · rw [if_neg ht]
        exact tracksAt_of_ensures (hbad _)

mutual

theorem tracks_pattern (hz : z.kind = .eof) : ∀ (n n' M : Nat), n ≤ n' → 8 * M + 2 ≤ n →
    Tracks z us M M (pattern n) (pattern n')
  | n + 1, n' + 1, M, hnn', hn => by
      refine .of_cons hz (moves_pattern stepwise_grows _) (idles_pattern _) fun Γ t ts hts => ?_
      obtain ⟨K, rfl⟩ := Nat.exists_eq_add_one.mpr (hts.trans_lt' (Nat.zero_lt_succ _))
      have hatomic := tracks_atomicPattern hz n n' K (by omega) (by omega)
      have hatomics := tracks_atomicPatterns hz n n' K (by omega) (by omega)
      have hatomic' := (hatomic.mono le_rfl (Nat.le_succ K)).at_le Γ (t :: ts) hts
      rw [pattern, pattern]
      refine tracksAt_current_bind ?_
      by_cases hk : t.kind = .ident
      · rw [if_pos hk, if_pos hk]
        refine tracksAt_ctor?_bind ?_
        cases Γ.find? t.text with
        | none => exact hatomic'
        | some c =>
            refine tracksAt_advance_bind (Tracks.at_le ?_ Γ ts (by simpa using hts))
            exact hatomics.bind fun ps => tracks_pure _ (by omega)
      · rw [if_neg hk, if_neg hk]
        exact hatomic'

theorem tracks_atomicPattern (hz : z.kind = .eof) : ∀ (n n' M : Nat), n ≤ n' → 8 * (M + 1) + 1 ≤ n →
    Tracks z us (M + 1) M (atomicPattern n) (atomicPattern n')
  | n + 1, n' + 1, M, hnn', hn => by
      refine .of_cons hz (moves_atomicPattern stepwise_grows _) (idles_atomicPattern _)
        fun Γ t ts hts => ?_
      have hts : ts.length ≤ M := by simpa using hts
      have hpattern := tracks_pattern hz n n' M (by omega) (by omega)
      rw [atomicPattern, atomicPattern]
      refine tracksAt_current_bind ?_
      cases hk : t.kind with
      | intLit => exact tracksAt_advance_bind (tracksAt_intLiteral_bind t false _ hts)
      | minus => exact tracksAt_negated hk hts (Pattern.int t.pos) (ensures_badPattern t)
      | kwTrue => exact tracksAt_advance_bind (tracksAt_pure _ hts)
      | kwFalse => exact tracksAt_advance_bind (tracksAt_pure _ hts)
      | ident =>
          refine tracksAt_advance_bind (tracksAt_ctor?_bind ?_)
          cases Γ.find? t.text with
          | none => exact tracksAt_pure _ hts
          | some c => exact tracksAt_pure _ hts
      | lparen =>
          refine tracksAt_advance_bind (Tracks.at_le ?_ Γ ts hts)
          refine hpattern.bind fun p => (tracks_expect hz (by simp)).keep.bind fun _ => ?_
          exact tracks_pure p le_rfl
      | _ => exact tracksAt_of_ensures (ensures_badPattern t _)

theorem tracks_atomicPatterns (hz : z.kind = .eof) : ∀ (n n' M : Nat), n ≤ n' → 8 * M + 2 ≤ n →
    Tracks z us M M (atomicPatterns n) (atomicPatterns n')
  | n + 1, n' + 1, M, hnn', hn => by
      refine .of_cons hz (moves_atomicPatterns stepwise_grows _) (idles_atomicPatterns _)
        fun Γ t ts hts => ?_
      obtain ⟨K, rfl⟩ := Nat.exists_eq_add_one.mpr (hts.trans_lt' (Nat.zero_lt_succ _))
      have hatomic := tracks_atomicPattern hz n n' K (by omega) (by omega)
      have hatomics := tracks_atomicPatterns hz n n' K (by omega) (by omega)
      rw [atomicPatterns, atomicPatterns]
      refine tracksAt_current_bind ?_
      by_cases hstart : startsPattern t.kind = true
      · rw [if_pos hstart, if_pos hstart]
        refine (hatomic.at_le Γ (t :: ts) hts).bind hatomic.grows fun p => ?_
        exact hatomics.bind fun ps => tracks_pure _ (by omega)
      · rw [if_neg hstart, if_neg hstart]
        exact tracksAt_pure _ hts

end

/-! ## Expressions -/

mutual

theorem tracks_expr (hz : z.kind = .eof) : ∀ (n n' M : Nat), n ≤ n' → 8 * M + 4 ≤ n →
    Tracks z us M M (expr n) (expr n')
  | n + 1, n' + 1, M, hnn', hn => by
      refine .of_cons hz (moves_expr stepwise_grows _) (idles_expr _) fun Γ t ts hts => ?_
      have hbinary := (tracks_binary hz n n' 1 M (by omega) (by omega)).at_le Γ (t :: ts) hts
      obtain ⟨K, rfl⟩ := Nat.exists_eq_add_one.mpr (hts.trans_lt' (Nat.zero_lt_succ _))
      have hts : ts.length ≤ K := by simpa using hts
      have hexpr := tracks_expr hz n n' K (by omega) (by omega)
      have halts := tracks_alternatives hz n n' K (by omega) (by omega)
      -- all that comes after the first token is compared on the rest of the input
      have hfunction : TracksAt z us (K + 1)
          (do
            let t ← advance
            let param ← binderName
            let _ ← expect .arrow
            let body ← expr n
            return Expr.fn t.pos param body)
          (do
            let t ← advance
            let param ← binderName
            let _ ← expect .arrow
            let body ← expr n'
            return Expr.fn t.pos param body) Γ (t :: ts) := by
        refine tracksAt_advance_bind (Tracks.at_le ?_ Γ ts hts)
        refine (tracks_binderName hz).keep.bind fun _ => ?_
        refine (tracks_expect hz (by simp)).keep.bind fun _ => ?_
        exact hexpr.bind fun _ => tracks_pure _ (by omega)
      rw [expr, expr]
      refine tracksAt_current_bind ?_
      cases hk : t.kind with
      | kwLet =>
          refine tracksAt_expect_bind hk (Tracks.at_le ?_ Γ ts hts)
          refine (tracks_binderName hz).keep.bind fun _ => ?_
          refine (tracks_expect hz (by simp)).keep.bind fun _ => hexpr.bind fun _ => ?_
          refine (tracks_expect hz (by simp)).keep.bind fun _ => hexpr.bind fun _ => ?_
          exact tracks_pure _ (by omega)
      | lambda => exact hfunction
      | kwFun => exact hfunction
      | kwIf =>
          refine tracksAt_expect_bind hk (Tracks.at_le ?_ Γ ts hts)
          refine hexpr.bind fun _ => (tracks_expect hz (by simp)).keep.bind fun _ => ?_
          refine hexpr.bind fun _ => (tracks_expect hz (by simp)).keep.bind fun _ => ?_
          exact hexpr.bind fun _ => tracks_pure _ (by omega)
      | kwCase =>
          refine tracksAt_expect_bind hk (Tracks.at_le ?_ Γ ts hts)
          refine hexpr.bind fun _ => (tracks_expect hz (by simp)).keep.bind fun _ => ?_
          refine (tracks_accept hz (by simp)).bind fun _ => ?_
          exact halts.bind fun _ => tracks_pure _ (by omega)
      | _ => exact hbinary

theorem tracks_alternatives (hz : z.kind = .eof) : ∀ (n n' M : Nat), n ≤ n' → 8 * M + 3 ≤ n →
    Tracks z us M M (alternatives n) (alternatives n')
  | n + 1, n' + 1, M, hnn', hn => by
      refine .of_cons hz (moves_alternatives stepwise_grows _) (idles_alternatives _)
        fun Γ t ts hts => ?_
      have hpattern : Tracks z us M M (pattern n) (pattern n') :=
        tracks_pattern hz n n' M (by omega) (by omega)
      obtain ⟨K, rfl⟩ := Nat.exists_eq_add_one.mpr (hts.trans_lt' (Nat.zero_lt_succ _))
      have hexpr := tracks_expr hz n n' K (by omega) (by omega)
      have halts := tracks_alternatives hz n n' K (by omega) (by omega)
      rw [alternatives, alternatives]
      refine tracksAt_current_bind ?_
      refine (hpattern.at_le Γ (t :: ts) hts).bind hpattern.grows fun p => ?_
      refine (tracks_expect hz (by simp)).bind fun _ => hexpr.bind fun body => ?_
      refine (tracks_accept hz (by simp)).bind fun b => ?_
      cases b with
      | false => exact tracks_pure _ (by omega)
      | true => exact halts.bind fun _ => tracks_pure _ (by omega)

theorem tracks_binary (hz : z.kind = .eof) : ∀ (n n' min M : Nat), n ≤ n' → 8 * M + 3 ≤ n →
    Tracks z us M M (binary n min) (binary n' min)
  | n + 1, n' + 1, min, M, hnn', hn => by
      rw [binary, binary]
      exact (tracks_application hz n n' M (by omega) (by omega)).bind fun left =>
        tracks_operators hz n n' min left M (by omega) (by omega)

theorem tracks_operators (hz : z.kind = .eof) : ∀ (n n' min : Nat) (left : Expr) (M : Nat), n ≤ n' →
    8 * M + 1 ≤ n → Tracks z us M M (operators n min left) (operators n' min left)
  | n + 1, n' + 1, min, left, M, hnn', hn => by
      refine .of_cons hz (moves_operators stepwise_grows _ _ _) (idles_operators _ _ _)
        fun Γ t ts hts => ?_
      rw [operators, operators]
      refine tracksAt_current_bind ?_
      dsimp only
      by_cases hstop : level t.kind = 0 ∨ level t.kind < min
      · rw [if_pos hstop, if_pos hstop]
        exact tracksAt_pure left hts
      · rw [if_neg hstop, if_neg hstop]
        obtain ⟨K, rfl⟩ := Nat.exists_eq_add_one.mpr (hts.trans_lt' (Nat.zero_lt_succ _))
        refine tracksAt_advance_bind (Tracks.at_le ?_ Γ ts (by simpa using hts))
        refine (tracks_binary hz n n' _ K (by omega) (by omega)).bind fun right => ?_
        exact (tracks_operators hz n n' min _ K (by omega) (by omega)).mono le_rfl (Nat.le_succ K)

theorem tracks_application (hz : z.kind = .eof) : ∀ (n n' M : Nat), n ≤ n' → 8 * M + 2 ≤ n →
    Tracks z us M M (application n) (application n')
  | n + 1, n' + 1, M, hnn', hn => by
      refine .of_cons hz (moves_application stepwise_grows _) (idles_application _) fun Γ t ts hts => ?_
      obtain ⟨K, rfl⟩ := Nat.exists_eq_add_one.mpr (hts.trans_lt' (Nat.zero_lt_succ _))
      have hatom := tracks_atom hz n n' K (by omega) (by omega)
      have hatoms := tracks_atoms hz n n' K (by omega) (by omega)
      rw [application, application]
      refine (hatom.at_le Γ (t :: ts) hts).bind hatom.grows fun func => ?_
      refine (tracks_current hz).bind fun u => ?_
      by_cases hstart : startsAtom u.kind = true
      · rw [if_pos hstart, if_pos hstart]
        exact hatoms.bind fun as => tracks_pure _ (by omega)
      · rw [if_neg hstart, if_neg hstart]
        exact tracks_pure func (by omega)

theorem tracks_atoms (hz : z.kind = .eof) : ∀ (n n' M : Nat), n ≤ n' → 8 * M + 2 ≤ n →
    Tracks z us M M (atoms n) (atoms n')
  | n + 1, n' + 1, M, hnn', hn => by
      refine .of_cons hz (moves_atoms stepwise_grows _) (idles_atoms _) fun Γ t ts hts => ?_
      obtain ⟨K, rfl⟩ := Nat.exists_eq_add_one.mpr (hts.trans_lt' (Nat.zero_lt_succ _))
      have hatom := tracks_atom hz n n' K (by omega) (by omega)
      have hatoms := tracks_atoms hz n n' K (by omega) (by omega)
      rw [atoms, atoms]
      refine tracksAt_current_bind ?_
      by_cases hstart : startsAtom t.kind = true
      · rw [if_pos hstart, if_pos hstart]
        refine (hatom.at_le Γ (t :: ts) hts).bind hatom.grows fun a => ?_
        exact hatoms.bind fun as => tracks_pure _ (by omega)
      · rw [if_neg hstart, if_neg hstart]
        exact tracksAt_pure _ hts

theorem tracks_atom (hz : z.kind = .eof) : ∀ (n n' M : Nat), n ≤ n' → 8 * (M + 1) + 1 ≤ n →
    Tracks z us (M + 1) M (atom n) (atom n')
  | n + 1, n' + 1, M, hnn', hn => by
      refine .of_cons hz (moves_atom stepwise_grows _) (idles_atom _) fun Γ t ts hts => ?_
      have hts : ts.length ≤ M := by simpa using hts
      have hexpr := tracks_expr hz n n' M (by omega) (by omega)
      have htype : Tracks z us M M (type n) (type n') := tracks_type hz n n' M (by omega) (by omega)
      rw [atom, atom]
      refine tracksAt_current_bind ?_
      cases hk : t.kind with
      | intLit => exact tracksAt_advance_bind (tracksAt_intLiteral_bind t false _ hts)
      | minus => exact tracksAt_negated hk hts (Expr.int t.pos) (ensures_badAtom t)
      | kwTrue => exact tracksAt_advance_bind (tracksAt_pure _ hts)
      | kwFalse => exact tracksAt_advance_bind (tracksAt_pure _ hts)
      | ident =>
          refine tracksAt_advance_bind (tracksAt_ctor?_bind ?_)
          cases Γ.find? t.text with
          | none => exact tracksAt_pure _ hts
          | some c => exact tracksAt_pure _ hts
      | lparen =>
          refine tracksAt_advance_bind (Tracks.at_le ?_ Γ ts hts)
          refine hexpr.bind fun e => (tracks_check hz _).bind fun b => ?_
          cases b with
          | false => exact (tracks_expect hz (by simp)).keep.bind fun _ => tracks_pure e le_rfl
          | true =>
              refine (tracks_advance hz).keep.bind fun _ => htype.bind fun ty => ?_
              exact (tracks_expect hz (by simp)).keep.bind fun _ => tracks_pure _ le_rfl
      | _ => exact tracksAt_of_ensures (ensures_badAtom t _)

end

end FunLang.Parser
