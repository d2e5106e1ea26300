import FunLang.Proofs.Grammar.Innermost
import FunLang.Proofs.Parser.Complete.Programs
import FunLang.Proofs.Token.Sequence

set_option autoImplicit false

/-!
# The programs that are accepted

A source text is accepted if it is read as a program without an error. It is accepted exactly if its
tokens are a program of the grammar, and then the tree that is returned is that of the derivation in
which every alternative belongs to the innermost `case` that is still open.
-/

namespace FunLang.Parser

open Grammar

variable {Γ : CtorTable} {source : List UInt8}

theorem State.consistent_start (T : Tolerance) (source : List UInt8) (Γ : CtorTable) :
    (State.start source Γ).Consistent T :=
  ⟨by simp [State.start], by simp [State.start]⟩

theorem le_depthFor (n : Nat) : 8 * n + 4 ≤ depthFor n := by
  unfold depthFor
  omega

/-- All messages about a program are errors. -/
theorem consistent_parseProgram (T : Tolerance) (source : List UInt8) (Γ : CtorTable) :
    (parseProgram source Γ).2.Consistent T :=
  (ensures_program true _ _ (State.consistent_start T source Γ)).1

theorem hasErrors_parseProgram_iff :
    Diagnostic.hasErrors (parseProgram source Γ).2.diags = false ↔
      (parseProgram source Γ).2.diags = [] := by
  constructor
  · exact (consistent_parseProgram .none source Γ).diags_eq_nil
  · intro h
    rw [h]
    rfl

/-- What lies between the start and a state at the end of the input is everything but the end. -/
theorem Passes.exists_eq_concat {ts : List Token} {s' : State}
    (h : Passes (.start source Γ) ts s') (heof : s'.current.kind = .eof) :
    ∃ z, Lexer.tokenize source = ts ++ [z] ∧ z.kind = .eof := by
  obtain ⟨us, z, heq, hus, hz⟩ := Lexer.tokenize_eq_concat source
  have hrest : us ++ [z] = ts ++ s'.rest := heq ▸ h.rest
  -- A longer `ts` would contain `z`, a shorter one would leave a token of `us` as the current one.
  rcases List.append_eq_append_iff.mp hrest with ⟨vs, rfl, hvs⟩ | ⟨vs, rfl, hvs⟩
  · rcases List.append_eq_singleton_iff.mp hvs.symm with ⟨rfl, -⟩ | ⟨rfl, -⟩
    · exact ⟨z, by simpa using heq, hz⟩
    · exact absurd hz (h.inside z (by simp))
  · cases vs with
    | nil => exact ⟨z, by simpa using heq, hz⟩
    | cons v vs =>
        have hcurrent : s'.current = v := by simp [State.current, hvs]
        exact absurd (hcurrent ▸ heof) (hus v (by simp))

/-- What is read of a program that is read without a complaint. -/
theorem parseProgram_within {T : Tolerance} (innermost : Bool)
    (h : (parseProgram source Γ).2.Within T) :
    ∃ ts us vs z, Lexer.tokenize source = ts ++ (us ++ (vs ++ [z])) ∧ z.kind = .eof ∧
      AreImports ts (parseProgram source Γ).1.imports ∧
      Declares (.start source Γ) (parseProgram source Γ).1.ctors (parseProgram source Γ).2 ∧
      (¬ Repeats Γ (parseProgram source Γ).1.ctors →
        AreData Γ us (parseProgram source Γ).1.data (parseProgram source Γ).2.ctors) ∧
      IsBody (parseProgram source Γ).2.ctors innermost vs (parseProgram source Γ).1.body := by
  have hquoted : Quoted (State.start source Γ).rest := fun _ ht hk =>
    (Lexer.exists_quoted_of_mem_tokenize ht hk).imp fun _ => And.left
  obtain ⟨-, hensures⟩ := ensures_program innermost _ _ (State.consistent_start T source Γ)
  obtain ⟨ts, us, vs, hpasses, his, hdeclares, hds, he, heof⟩ :=
    (hensures h).2 (le_depthFor _) hquoted
  obtain ⟨z, heq, hz⟩ := hpasses.exists_eq_concat heof
  exact ⟨ts, us, vs, z, by simpa using heq, hz, his, hdeclares, hds, he⟩

/-- A message about a program that is read without a complaint is about a repeated constructor. -/
theorem diags_parseProgram_eq_nil_iff {T : Tolerance} (h : (parseProgram source Γ).2.Within T) :
    (parseProgram source Γ).2.diags = [] ↔ ¬ Repeats Γ (parseProgram source Γ).1.ctors := by
  obtain ⟨ts, us, vs, z, -, -, -, hdeclares, -, -⟩ := parseProgram_within true h
  obtain ⟨new, hdiags, hnew⟩ := hdeclares.diags
  rw [hdiags]
  exact hnew

theorem isProgram_parseProgram (innermost : Bool)
    (h : (parseProgram source Γ).2.diags = []) :
    IsProgram Γ innermost (Lexer.tokenize source) (parseProgram source Γ).1 := by
  have hwithin := State.within_none_iff.mpr h
  obtain ⟨ts, us, vs, z, heq, hz, his, -, hds, he⟩ := parseProgram_within innermost hwithin
  rw [heq]
  exact .mk his (hds ((diags_parseProgram_eq_nil_iff hwithin).mp h)) he hz

theorem parseProgram_eq_of_isProgram {p : Program}
    (h : IsProgram Γ true (Lexer.tokenize source) p) :
    (parseProgram source Γ).2.diags = [] ∧ (parseProgram source Γ).1 = p := by
  obtain ⟨Γ', rest, hyields⟩ :=
    yields_program h (depthFor (Lexer.tokenize source).length) (le_depthFor _)
  have hparse : parseProgram source Γ = (p, .before Γ' rest) := hyields
  rw [hparse]
  exact ⟨rfl, rfl⟩

/-- A source text is read without an error exactly if its tokens form a program of the grammar. The
program that is read is then the one in which every alternative belongs to the innermost `case` that
is open, and there is no other such program. -/
theorem parseProgram_accepts_iff (Γ : CtorTable) (source : List UInt8) :
    (Diagnostic.hasErrors (parseProgram source Γ).2.diags = false ↔
      ∃ p, IsProgram Γ false (Lexer.tokenize source) p) ∧
    ∀ p, IsProgram Γ true (Lexer.tokenize source) p ↔
      Diagnostic.hasErrors (parseProgram source Γ).2.diags = false ∧
        (parseProgram source Γ).1 = p := by
  rw [hasErrors_parseProgram_iff]
  constructor
  · constructor
    · intro h
      exact ⟨_, isProgram_parseProgram false h⟩
    · rintro ⟨p, hp⟩
      obtain ⟨p', hp'⟩ := hp.innermost
      exact (parseProgram_eq_of_isProgram hp').1
  · intro p
    constructor
    · exact parseProgram_eq_of_isProgram
    · rintro ⟨h, rfl⟩
      exact isProgram_parseProgram true h

end FunLang.Parser
