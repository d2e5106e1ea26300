import FunLang.Proofs.Parser.Complete.Exprs
import FunLang.Proofs.Parser.Sound.Programs

set_option autoImplicit false

/-!
# Programs are read

Every program of the grammar in its innermost reading is read as that program, and nothing is reported.
-/

namespace FunLang.Parser

open Grammar

variable {Γ Γ' : CtorTable}

/-! ## Imports -/

theorem yields_importDecl {ts : List Token} {i : Import} (h : IsImport ts i) (rest : List Token) :
    Yields importDecl (.before Γ (ts ++ rest)) i (.before Γ rest) := by
  obtain ⟨hi, hs, hpath, he⟩ := h
  unfold importDecl
  refine (yields_expect hi _).bind ((yields_expect hs _).bind ((yields_expect he _).bind ?_))
  rw [hpath, stripQuotes_quoted]
  exact yields_pure _ _

theorem yields_importDecls {ts : List Token} {is : List Import} (h : AreImports ts is) (n : Nat)
    (rest : List Token) (hn : 8 * ts.length + 1 ≤ n) (hnext : nextKind rest ≠ .kwImport) :
    Yields (importDecls n) (.before Γ (ts ++ rest)) is (.before Γ rest) := by
  induction h generalizing n with
  | nil =>
      obtain ⟨n, rfl⟩ := Nat.exists_eq_add_one.mpr (show 0 < n by omega)
      rw [importDecls]
      refine yields_check_bind ?_
      rw [if_neg (by simpa using hnext)]
      exact yields_pure _ _
  | cons h _ ih =>
      obtain ⟨n, rfl⟩ := Nat.exists_eq_add_one.mpr (show 0 < n by omega)
      rw [List.length_append] at hn
      rw [importDecls, List.append_assoc]
      refine yields_check_bind ?_
      have hstart := h.starts
      rw [if_pos (by simpa using hstart.nextKind _)]
      have hpos := hstart.length_pos
      refine (yields_importDecl h _).bind ?_
      exact (ih n (by omega)).bind (yields_pure _ _)

/-! ## Data declarations -/

theorem yields_declare {c : Constructor} (hc : Γ.find? c.name = none) (ts : List Token) :
    Yields (declare c) (.before Γ ts) () (.before (Γ.insert c) ts) := by
  unfold declare
  refine yields_ctor?_bind ?_
  rw [if_neg (by simpa [State.before] using hc)]
  rfl

theorem yields_constructors {type : String} {ts : List Token} {cs : List Constructor}
    (h : AreConstructors type Γ ts cs Γ') : ∀ (n : Nat) (rest : List Token), 8 * ts.length + 1 ≤ n →
      nextKind rest = .semicolon →
      Yields (constructors n type) (.before Γ (ts ++ rest)) (some cs) (.before Γ' rest) := by
  induction h with
  | @one Γ x ts fields hx h =>
      intro n rest hn hnext
      obtain ⟨n, rfl⟩ : ∃ m, n = m + 1 := ⟨n - 1, by omega⟩
      rw [List.length_cons] at hn
      rw [constructors]
      refine (yields_expect hx.1 _).bind ?_
      rw [if_neg (by simp [hx.1])]
      refine (yields_atomicTypes h n rest (by omega) (by simp [hnext, startsAtomicType])).bind ?_
      refine (yields_declare hx.2 rest).bind ?_
      exact (yields_accept_of_ne (by simp [hnext])).bind (yields_pure _ _)
  | @cons Γ Γ' x b ts us fields cs hx h hb _ ih =>
      intro n rest hn hnext
      obtain ⟨n, rfl⟩ : ∃ m, n = m + 1 := ⟨n - 1, by omega⟩
      simp only [List.length_append, List.length_cons] at hn
      rw [constructors]
      simp only [List.cons_append, List.append_assoc]
      refine (yields_expect hx.1 _).bind ?_
      rw [if_neg (by simp [hx.1])]
      refine (yields_atomicTypes h n _ (by omega) (by simp [hb, startsAtomicType])).bind ?_
      refine (yields_declare hx.2 _).bind ?_
      refine (yields_accept hb _).bind ?_
      exact (ih n rest (by omega) hnext).bind (yields_pure _ _)

theorem yields_dataDecl {ts : List Token} {d : DataDecl} (h : IsData Γ ts d Γ') (n : Nat)
    (rest : List Token) (hn : 8 * ts.length + 1 ≤ n) :
    Yields (dataDecl n) (.before Γ (ts ++ rest)) (some d) (.before Γ' rest) := by
  obtain ⟨hd, hx, ha, hcs, he⟩ := h
  simp only [List.length_append, List.length_cons] at hn
  unfold dataDecl
  simp only [List.cons_append, List.append_assoc, List.nil_append]
  refine (yields_expect hd _).bind ((yields_expect hx _).bind ?_)
  rw [if_neg (by simp [hx])]
  refine (yields_expect ha _).bind ?_
  refine (yields_constructors hcs n _ (by omega) (by simp [he])).bind ?_
  exact (yields_expect he rest).bind (yields_pure _ _)

theorem yields_dataDecls {ts : List Token} {ds : List DataDecl} (h : AreData Γ ts ds Γ') :
    ∀ (n : Nat) (rest : List Token), 8 * ts.length + 2 ≤ n → nextKind rest ≠ .kwData →
      Yields (dataDecls n) (.before Γ (ts ++ rest)) ds (.before Γ' rest) := by
  induction h with
  | nil =>
      intro n rest hn hnext
      obtain ⟨n, rfl⟩ : ∃ m, n = m + 1 := ⟨n - 1, by omega⟩
      rw [dataDecls]
      refine yields_check_bind ?_
      rw [if_neg (by simpa using hnext)]
      exact yields_pure _ _
  | cons h _ ih =>
      intro n rest hn hnext
      obtain ⟨n, rfl⟩ : ∃ m, n = m + 1 := ⟨n - 1, by omega⟩
      rw [List.length_append] at hn
      rw [dataDecls, List.append_assoc]
      refine yields_check_bind ?_
      have hstart := h.starts
      rw [if_pos (by simpa using hstart.nextKind _)]
      have hpos := hstart.length_pos
      refine (yields_dataDecl h n _ (by omega)).bind ?_
      exact (ih n rest (by omega) hnext).bind (yields_pure _ _)

/-! ## Programs -/

theorem yields_finish {rest : List Token} (hrest : nextKind rest = .eof) :
    Yields finish (.before Γ rest) () (.before Γ rest) := by
  unfold finish
  refine (yields_accept_of_ne (by simp [hrest])).bind (yields_current_bind ?_)
  rw [if_neg (by simpa using hrest)]
  exact yields_pure _ _

theorem yields_finish_semicolon {t : Token} (ht : t.kind = .semicolon) {rest : List Token}
    (hrest : nextKind rest = .eof) : Yields finish (.before Γ (t :: rest)) () (.before Γ rest) := by
  unfold finish
  refine (yields_accept ht rest).bind (yields_current_bind ?_)
  rw [if_neg (by simpa using hrest)]
  exact yields_pure _ _

theorem yields_program {ts : List Token} {p : Program} (h : IsProgram Γ true ts p) (n : Nat)
    (hn : 8 * ts.length + 4 ≤ n) :
    ∃ Γ' rest, Yields (program n) (.before Γ ts) p (.before Γ' rest) := by
  obtain @⟨Γ', ts, us, vs, z, is, ds, e, his, hds, he, hz⟩ := h
  -- a body starts with neither kind of declaration, so each list of them ends where it should
  obtain ⟨hdata, himport⟩ := he.nextKind_ne hz
  simp only [List.length_append] at hn
  refine ⟨Γ', [z], ?_⟩
  unfold program
  refine (yields_importDecls his n _ (by omega) (hds.nextKind_ne himport)).bind ?_
  refine (yields_dataDecls hds n _ (by omega) hdata).bind ?_
  refine yields_current_bind ?_
  rw [State.kind_current_before, if_neg himport]
  cases he with
  | missing =>
      rw [if_pos (by simpa using hz)]
      exact yields_pure _ _
  | expr h =>
      rw [if_neg (h.starts.nextKind_ne rfl _)]
      refine (yields_expr h n _ (by omega) (follows_of_closes (by simp [hz, closes]) _)).bind ?_
      exact (yields_finish (by simp [hz])).bind (yields_pure _ _)
  | terminated h hs =>
      rw [List.length_append] at hn
      rw [List.append_assoc, if_neg (h.starts.nextKind_ne rfl _)]
      refine (yields_expr h n _ (by omega) (follows_of_closes (by simp [hs, closes]) _)).bind ?_
      exact (yields_finish_semicolon hs (by simp [hz])).bind (yields_pure _ _)

end FunLang.Parser
