import FunLang.Proofs.Grammar.Starts
import FunLang.Proofs.Parser.Ensures

set_option autoImplicit false

/-!
# Types and patterns that are read without a message

One theorem for each parser: if it reports nothing then the tokens that it has passed over stand for
the tree that it returns. The bound on the depth of the calls has to be large enough for the tokens that
are left; each parser asks for eight calls a token and a few more.
-/

namespace FunLang.Parser

open Grammar

variable {T : Tolerance}

/-! ## Types -/

mutual

theorem ensures_type : ∀ (n : Nat) (s : State), Ensures T (type n) s fun t s' =>
    Phrase n 2 s s' fun _ ts => IsType ts t
  | 0, s => ensures_pure fun h => absurd h (by omega)
  | n + 1, s => by
      rw [type]
      refine (ensures_atomicType n s).bind fun t s₁ => ensures_check_bind ?_
      split
      · rename_i harrow
        have harrow : s₁.current.kind = .arrow := by simpa using harrow
        refine (ensures_advance_of_ne (by simp [harrow])).bind fun a s₂ => ?_
        refine (ensures_type n s₂).bind fun u s₃ => ensures_pure ?_
        rintro hu ⟨rfl, ha⟩ ht hn
        obtain ⟨ts, hts, ht⟩ := ht.first hn (by simp)
        obtain ⟨us, hus, hu⟩ := hu.after (hts.trans ha) (by simp) hn (by simp)
        exact ⟨_, by simpa using hus, .arrow ht harrow hu⟩
      · refine ensures_pure fun ht hn => ?_
        obtain ⟨ts, hts, ht⟩ := ht.first hn (by simp)
        exact ⟨ts, hts, .atomic ht⟩

theorem ensures_atomicType : ∀ (n : Nat) (s : State), Ensures T (atomicType n) s fun t s' =>
    Phrase n 1 s s' fun _ ts => IsAtomicType ts t
  | 0, s => ensures_pure fun h => absurd h (by omega)
  | n + 1, s => by
      rw [atomicType]
      refine ensures_current_bind ?_
      split
      · rename_i hk
        refine (ensures_advance_of_ne (by simp [hk])).bind fun t s₁ => ensures_pure ?_
        rintro ⟨rfl, ht⟩ -
        exact ⟨_, ht, .name (hk ▸ .int)⟩
      · rename_i hk
        refine (ensures_advance_of_ne (by simp [hk])).bind fun t s₁ => ensures_pure ?_
        rintro ⟨rfl, ht⟩ -
        exact ⟨_, ht, .name (hk ▸ .bool)⟩
      · rename_i hk
        refine (ensures_advance_of_ne (by simp [hk])).bind fun t s₁ => ensures_pure ?_
        rintro ⟨rfl, ht⟩ -
        exact ⟨_, ht, .name (hk ▸ .name)⟩
      · rename_i hk
        refine (ensures_advance_of_ne (by simp [hk])).bind fun l s₁ => ?_
        refine (ensures_type n s₁).bind fun t s₂ => ?_
        refine (ensures_expect (by simp) s₂).bind fun r s₃ => ensures_pure ?_
        rintro ⟨hr, hread⟩ ht ⟨rfl, hl⟩ hn
        obtain ⟨ts, hts, ht⟩ := ht.after hl (by simp) hn (by simp)
        exact ⟨_, hts.trans hread, .paren hk ht hr⟩
      · refine (ensures_complain _ (by simp [IsComplaint, toString]) s).bind fun _ s₁ => ?_
        exact (ensures_advance s₁).bind fun _ s₂ => ensures_pure fun _ => False.elim

end

theorem ensures_atomicTypes : ∀ (n : Nat) (s : State), Ensures T (atomicTypes n) s fun tys s' =>
    Phrase n 2 s s' fun _ ts => AreAtomicTypes ts tys
  | 0, s => ensures_pure fun h => absurd h (by omega)
  | n + 1, s => by
      rw [atomicTypes]
      refine ensures_current_bind ?_
      split
      · refine (ensures_atomicType n s).bind fun t s₁ => ?_
        refine (ensures_atomicTypes n s₁).bind fun tys s₂ => ensures_pure ?_
        rintro htys ht hn
        obtain ⟨ts, hts, ht⟩ := ht.first hn (by simp)
        obtain ⟨us, hus, htys⟩ := htys.after hts ht.starts.length_pos hn (by simp)
        exact ⟨_, hus, .cons ht htys⟩
      · exact ensures_pure fun _ => ⟨[], .refl s, .nil⟩

/-! ## Patterns -/

theorem toInt_ofInt_of_range {i : Int} (h : minInt ≤ i ∧ i ≤ maxInt) : (Int64.ofInt i).toInt = i := by
  unfold minInt maxInt at h
  exact Int64.toInt_ofInt_of_le (by omega) (by omega)

theorem ensures_intLiteral (t : Token) (negative : Bool) (s : State) :
    Ensures T (intLiteral t negative) s fun n s' =>
      s' = s ∧ n.toInt = (if negative then - (digitsValue t.literal : Int) else digitsValue t.literal) := by
  unfold intLiteral
  generalize (if negative then - (digitsValue t.literal : Int) else digitsValue t.literal) = i
  show Ensures T (if minInt ≤ i ∧ i ≤ maxInt then pure (Int64.ofInt i) else _) s _
  split
  · rename_i h
    exact ensures_pure ⟨rfl, toInt_ofInt_of_range h⟩
  · refine (ensures_report rfl s).bind fun _ _ => ensures_pure fun hreport => absurd hreport.1 ?_
    exact T.strict _ _ (by simp [IsComplaint, toString])

/-- A minus sign and the digits after it. -/
theorem ensures_negated {α : Type} {s : State} (hm : s.current.kind = .minus)
    (ht : s.peek.kind = .intLit) (f : Int64 → α) :
    Ensures T (do let _ ← advance; let digits ← advance; return f (← intLiteral digits true)) s fun a s' =>
      ∃ t n, Reads s [s.current, t] s' ∧ IsNegated t n ∧ a = f n := by
  have hread : Reads s [s.current] s.advance := State.reads_advance (by simp [hm])
  have hpeek : s.advance.current = s.peek := by
    rw [State.peek, hread.rest]
    rfl
  refine (ensures_advance s).bind fun m s₁ => ?_
  refine (ensures_advance s₁).bind fun t s₂ => ?_
  refine (ensures_intLiteral t true s₂).bind fun n s₃ => ensures_pure ?_
  rintro ⟨rfl, hn⟩ ⟨rfl, rfl⟩ ⟨rfl, rfl⟩
  have hread' : Reads s.advance [s.advance.current] s.advance.advance :=
    State.reads_advance (by simp [hpeek, ht])
  exact ⟨_, n, hread.trans hread', ⟨hpeek ▸ ht, hn⟩, rfl⟩

theorem ensures_badPattern (t : Token) (s : State) : Ensures T (badPattern t) s fun _ _ => False := by
  unfold badPattern
  refine (ensures_complain _ (by simp [IsComplaint, toString]) s).bind fun _ s₁ => ensures_check_bind ?_
  split
  · exact (ensures_advance s₁).bind fun _ _ => ensures_pure fun _ => False.elim
  · exact ensures_pure False.elim

mutual

theorem ensures_pattern : ∀ (n : Nat) (s : State), Ensures T (pattern n) s fun p s' =>
    Phrase n 2 s s' fun Γ ts => IsPattern Γ ts p
  | 0, s => ensures_pure fun h => absurd h (by omega)
  | n + 1, s => by
      rw [pattern]
      refine ensures_current_bind ?_
      have hatomic : Ensures T (atomicPattern n) s fun p s' =>
          Phrase (n + 1) 2 s s' fun Γ ts => IsPattern Γ ts p := by
        refine (ensures_atomicPattern n s).mono fun p s' h hn => ?_
        obtain ⟨ts, hts, hp⟩ := h.first hn (by simp)
        exact ⟨ts, hts, .atomic hp⟩
      split
      · rename_i hk
        refine ensures_ctor?_bind ?_
        split
        · rename_i c hc
          refine (ensures_advance_of_ne (by simp [hk])).bind fun t s₁ => ?_
          refine (ensures_atomicPatterns n s₁).bind fun ps s₂ => ensures_pure ?_
          rintro hps ⟨rfl, ht⟩ hn
          obtain ⟨ts, hts, hps⟩ := hps.after ht (by simp) hn (by simp)
          exact ⟨_, hts, .ctor ⟨hk, hc⟩ hps⟩
        · exact hatomic
      · exact hatomic

theorem ensures_atomicPattern : ∀ (n : Nat) (s : State), Ensures T (atomicPattern n) s fun p s' =>
    Phrase n 1 s s' fun Γ ts => IsAtomicPattern Γ ts p
  | 0, s => ensures_pure fun h => absurd h (by omega)
  | n + 1, s => by
      rw [atomicPattern]
      refine ensures_current_bind ?_
      split
      · rename_i hk
        refine (ensures_advance_of_ne (by simp [hk])).bind fun t s₁ => ?_
        refine (ensures_intLiteral _ _ s₁).bind fun i s₂ => ensures_pure ?_
        rintro ⟨rfl, hi⟩ ⟨rfl, ht⟩ -
        exact ⟨_, ht, .int ⟨hk, hi⟩⟩
      · rename_i hk
        refine ensures_peek_bind ?_
        split
        · rename_i hpeek
          refine (ensures_negated hk hpeek (Pattern.int s.current.pos)).mono ?_
          rintro p s' ⟨t, i, hread, ht, rfl⟩ -
          exact ⟨_, hread, .negated hk ht⟩
        · exact (ensures_badPattern _ s).mono fun _ _ => False.elim
      · rename_i hk
        refine (ensures_advance_of_ne (by simp [hk])).bind fun t s₁ => ensures_pure ?_
        rintro ⟨rfl, ht⟩ -
        exact ⟨_, ht, .true hk⟩
      · rename_i hk
        refine (ensures_advance_of_ne (by simp [hk])).bind fun t s₁ => ensures_pure ?_
        rintro ⟨rfl, ht⟩ -
        exact ⟨_, ht, .false hk⟩
      · rename_i hk
        refine (ensures_advance_of_ne (by simp [hk])).bind fun t s₁ => ensures_ctor?_bind ?_
        split
        · rename_i c hc
          refine ensures_pure ?_
          rintro ⟨rfl, ht⟩ -
          exact ⟨_, ht, .ctor ⟨hk, ht.ctors ▸ hc⟩⟩
        · rename_i hc
          refine ensures_pure ?_
          rintro ⟨rfl, ht⟩ -
          exact ⟨_, ht, .var ⟨hk, ht.ctors ▸ hc⟩⟩
      · rename_i hk
        refine (ensures_advance_of_ne (by simp [hk])).bind fun l s₁ => ?_
        refine (ensures_pattern n s₁).bind fun p s₂ => ?_
        refine (ensures_expect (by simp) s₂).bind fun r s₃ => ensures_pure ?_
        rintro ⟨hr, hread⟩ hp ⟨rfl, hl⟩ hn
        obtain ⟨ts, hts, hp⟩ := hp.after hl (by simp) hn (by simp)
        exact ⟨_, hts.trans hread, .paren hk hp hr⟩
      · exact (ensures_badPattern _ s).mono fun _ _ => False.elim

theorem ensures_atomicPatterns : ∀ (n : Nat) (s : State), Ensures T (atomicPatterns n) s fun ps s' =>
    Phrase n 2 s s' fun Γ ts => AreAtomicPatterns Γ ts ps
  | 0, s => ensures_pure fun h => absurd h (by omega)
  | n + 1, s => by
      rw [atomicPatterns]
      refine ensures_current_bind ?_
      split
      · refine (ensures_atomicPattern n s).bind fun p s₁ => ?_
        refine (ensures_atomicPatterns n s₁).bind fun ps s₂ => ensures_pure ?_
        intro hps hp hn
        obtain ⟨ts, hts, hp⟩ := hp.first hn (by simp)
        obtain ⟨us, hus, hps⟩ := hps.after hts hp.starts.length_pos hn (by simp)
        exact ⟨_, hus, .cons hp hps⟩
      · exact ensures_pure fun _ => ⟨[], .refl s, .nil⟩

end

end FunLang.Parser
