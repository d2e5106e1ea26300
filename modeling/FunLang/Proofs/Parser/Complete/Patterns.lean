import FunLang.Proofs.Parser.Yields

set_option autoImplicit false

/-!
# Types and patterns are read

A parser reads every phrase of the grammar to its end and stops there, provided that what comes next
cannot go on with the phrase. As in the other direction, eight calls for a token and a few more are
depth enough.
-/

namespace FunLang.Parser

open Grammar

variable {Γ : CtorTable}

/-! ## Types -/

mutual

theorem yields_type : ∀ {ts : List Token} {t : Ty}, IsType ts t → ∀ (n : Nat) (rest : List Token),
    8 * ts.length + 2 ≤ n → nextKind rest ≠ .arrow →
      Yields (type n) (.before Γ (ts ++ rest)) t (.before Γ rest)
  | _, _, .atomic h, n + 1, rest, hn, hnext => by
      rw [type]
      refine (yields_atomicType h n rest (by omega)).bind (yields_check_bind ?_)
      rw [if_neg (by simpa using hnext)]
      exact yields_pure _ _
  | _, _, .arrow (a := a) h ha hu, n + 1, rest, hn, hnext => by
      simp only [List.length_append, List.length_cons] at hn
      rw [type, List.append_assoc, List.cons_append]
      refine (yields_atomicType h n _ (by omega)).bind (yields_check_bind ?_)
      rw [if_pos (by simpa using ha)]
      refine (yields_advance a _).bind ?_
      exact (yields_type hu n rest (by omega) hnext).bind (yields_pure _ _)

theorem yields_atomicType : ∀ {ts : List Token} {t : Ty}, IsAtomicType ts t →
    ∀ (n : Nat) (rest : List Token), 8 * ts.length + 1 ≤ n →
      Yields (atomicType n) (.before Γ (ts ++ rest)) t (.before Γ rest)
  | _, _, .name (t := t) ht, n + 1, rest, _ => by
      rw [atomicType]
      refine yields_current_bind ?_
      rcases ht.eq_or with hk | hk | hk <;>
        simp only [List.cons_append, List.nil_append, State.current_before_cons, hk] <;>
        exact (yields_advance t rest).bind (yields_pure _ _)
  | _, _, .paren (l := l) (r := r) hl h hr, n + 1, rest, hn => by
      simp only [List.length_append, List.length_cons] at hn
      rw [atomicType]
      refine yields_current_bind ?_
      simp only [List.cons_append, State.current_before_cons, hl]
      refine (yields_advance l _).bind ?_
      rw [List.append_assoc]
      refine (yields_type h n _ (by omega) (by simp [hr])).bind ?_
      exact (yields_expect hr rest).bind (yields_pure _ _)

end

theorem yields_atomicTypes : ∀ {ts : List Token} {tys : List Ty}, AreAtomicTypes ts tys →
    ∀ (n : Nat) (rest : List Token), 8 * ts.length + 2 ≤ n → startsAtomicType (nextKind rest) = false →
      Yields (atomicTypes n) (.before Γ (ts ++ rest)) tys (.before Γ rest)
  | _, _, .nil, n + 1, rest, _, hnext => by
      rw [atomicTypes]
      refine yields_current_bind ?_
      rw [if_neg (by simpa using hnext)]
      exact yields_pure _ _
  | _, _, .cons h hs, n + 1, rest, hn, hnext => by
      have hpos := h.starts.length_pos
      rw [List.length_append] at hn
      rw [atomicTypes, List.append_assoc]
      refine yields_current_bind ?_
      rw [if_pos (by simpa using h.starts.nextKind _)]
      refine (yields_atomicType h n _ (by omega)).bind ?_
      exact (yields_atomicTypes hs n rest (by omega) hnext).bind (yields_pure _ _)

/-! ## Patterns -/

/-- A minus sign and the digits after it. -/
theorem yields_negated {α : Type} {m t : Token} {n : Int64} (ht : IsNegated t n) (f : Int64 → α)
    (rest : List Token) :
    Yields (do let _ ← advance; let digits ← advance; return f (← intLiteral digits true))
      (.before Γ (m :: t :: rest)) (f n) (.before Γ rest) := by
  refine (yields_advance m _).bind ((yields_advance t _).bind ?_)
  exact (yields_intLiteral ht.2 _).bind (yields_pure _ _)

mutual

theorem yields_pattern : ∀ {ts : List Token} {p : Pattern}, IsPattern Γ ts p →
    ∀ (n : Nat) (rest : List Token), 8 * ts.length + 2 ≤ n → startsPattern (nextKind rest) = false →
      Yields (pattern n) (.before Γ (ts ++ rest)) p (.before Γ rest)
  | _, _, .ctor (t := t) ht hs, n + 1, rest, hn, hnext => by
      simp only [List.length_cons] at hn
      rw [pattern]
      refine yields_current_bind ?_
      simp only [List.cons_append, State.current_before_cons, ht.1, if_true]
      refine yields_ctor?_bind ?_
      simp only [State.before, ht.2]
      refine (yields_advance t _).bind ?_
      exact (yields_atomicPatterns hs n rest (by omega) hnext).bind (yields_pure _ _)
  | _, _, .atomic h, n + 1, rest, hn, hnext => by
      rw [pattern]
      refine yields_current_bind ?_
      have hatomic := yields_atomicPattern h n rest (by omega)
      obtain ⟨t, us, rfl, -⟩ := h.starts
      split
      · rename_i hk
        refine yields_ctor?_bind ?_
        split
        · rename_i c hc
          -- a constructor by itself is read as one without arguments
          obtain ⟨rfl, rfl⟩ := h.of_constructor ⟨hk, hc⟩
          refine (yields_advance t rest).bind ?_
          exact (yields_atomicPatterns .nil n rest (by simp at hn ⊢; omega) hnext).bind (yields_pure _ _)
        · exact hatomic
      · exact hatomic

theorem yields_atomicPattern : ∀ {ts : List Token} {p : Pattern}, IsAtomicPattern Γ ts p →
    ∀ (n : Nat) (rest : List Token), 8 * ts.length + 1 ≤ n →
      Yields (atomicPattern n) (.before Γ (ts ++ rest)) p (.before Γ rest)
  | _, _, .int (t := t) ht, n + 1, rest, hn => by
      rw [atomicPattern]
      refine yields_current_bind ?_
      simp only [List.cons_append, List.nil_append, State.current_before_cons, ht.1]
      refine (yields_advance t _).bind ?_
      exact (yields_intLiteral ht.2 _).bind (yields_pure _ _)
  | _, _, .negated (m := m) (t := t) hm ht, n + 1, rest, hn => by
      rw [atomicPattern]
      refine yields_current_bind ?_
      simp only [List.cons_append, List.nil_append, State.current_before_cons, hm]
      refine yields_peek_bind ?_
      rw [if_pos (by exact ht.1)]
      exact yields_negated ht _ rest
  | _, _, .true (t := t) ht, n + 1, rest, hn => by
      rw [atomicPattern]
      refine yields_current_bind ?_
      simp only [List.cons_append, List.nil_append, State.current_before_cons, ht]
      exact (yields_advance t _).bind (yields_pure _ _)
  | _, _, .false (t := t) ht, n + 1, rest, hn => by
      rw [atomicPattern]
      refine yields_current_bind ?_
      simp only [List.cons_append, List.nil_append, State.current_before_cons, ht]
      exact (yields_advance t _).bind (yields_pure _ _)
  | _, _, .var (t := t) ht, n + 1, rest, hn => by
      rw [atomicPattern]
      refine yields_current_bind ?_
      simp only [List.cons_append, List.nil_append, State.current_before_cons, ht.1]
      refine (yields_advance t _).bind (yields_ctor?_bind ?_)
      simp only [State.before, ht.2]
      exact yields_pure _ _
  | _, _, .ctor (t := t) ht, n + 1, rest, hn => by
      rw [atomicPattern]
      refine yields_current_bind ?_
      simp only [List.cons_append, List.nil_append, State.current_before_cons, ht.1]
      refine (yields_advance t _).bind (yields_ctor?_bind ?_)
      simp only [State.before, ht.2]
      exact yields_pure _ _
  | _, _, .paren (l := l) (r := r) hl h hr, n + 1, rest, hn => by
      simp only [List.length_append, List.length_cons] at hn
      rw [atomicPattern]
      refine yields_current_bind ?_
      simp only [List.cons_append, State.current_before_cons, hl]
      refine (yields_advance l _).bind ?_
      rw [List.append_assoc]
      refine (yields_pattern h n _ (by omega) (by simp [hr, startsPattern])).bind ?_
      exact (yields_expect hr rest).bind (yields_pure _ _)

theorem yields_atomicPatterns : ∀ {ts : List Token} {ps : List Pattern}, AreAtomicPatterns Γ ts ps →
    ∀ (n : Nat) (rest : List Token), 8 * ts.length + 2 ≤ n → startsPattern (nextKind rest) = false →
      Yields (atomicPatterns n) (.before Γ (ts ++ rest)) ps (.before Γ rest)
  | _, _, .nil, n + 1, rest, _, hnext => by
      rw [atomicPatterns]
      refine yields_current_bind ?_
      rw [if_neg (by simpa using hnext)]
      exact yields_pure _ _
  | _, _, .cons h hs, n + 1, rest, hn, hnext => by
      have hpos := h.starts.length_pos
      rw [List.length_append] at hn
      rw [atomicPatterns, List.append_assoc]
      refine yields_current_bind ?_
      rw [if_pos (by simpa using h.starts.nextKind _)]
      refine (yields_atomicPattern h n _ (by omega)).bind ?_
      exact (yields_atomicPatterns hs n rest (by omega) hnext).bind (yields_pure _ _)

end

end FunLang.Parser
