import Mathlib.Tactic
import FunLang.Proofs.Layout.Canonical
import FunLang.Proofs.Machine.Legible
import FunLang.Proofs.Machine.Limits

set_option autoImplicit false

/-!
# Traces are source text

Whoever follows the run of a program sees its states, one before each step. The text that such a state
is shown as can be read again, with the constructors of the program known, and what is read is the
surface of the state. Only a program without a body is different: its run shows the expression that
is missing, for which there is no source text, and then fails.
-/

namespace FunLang.Machine

/-- A run from `s` shows the state `t`. A run that goes on for ever is followed up to a budget. -/
def State.Shows (s t : State) : Prop :=
  ∃ maxSteps signal r seen,
    runWith maxSteps signal (fun seen _ t => t :: seen) [] s = some (r, seen) ∧ t ∈ seen

/-- What a run shows is what its steps lead to. -/
theorem State.shows_iff {s t : State} : s.Shows t ↔ ∃ n, s.after? n = some t := by
  constructor
  · rintro ⟨maxSteps, signal, r, seen, hrun, ht⟩
    obtain ⟨calls, -, hcalls, hloop⟩ := (stops_of_loop _ _ _ 0 _ s _ hrun).exists_calls
    obtain rfl : calls.foldl (fun seen c => c.2 :: seen) [] = seen := by
      simpa [runWith, hloop] using hrun
    rw [List.foldl_flip_cons_eq_append, List.append_nil, List.mem_reverse] at ht
    obtain ⟨c, hc, rfl⟩ := List.mem_map.mp ht
    obtain ⟨i, hi⟩ := List.mem_iff_getElem?.mp hc
    exact ⟨i, (hcalls i c hi).2⟩
  · rintro ⟨n, h⟩
    obtain ⟨r, hstops, hsteps⟩ := exists_stops_succ h
    obtain ⟨calls, hlength, hcalls, hloop⟩ := hstops.exists_calls
    obtain ⟨c, hc⟩ : ∃ c, calls[n]? = some c := ⟨_, List.getElem?_eq_getElem (by omega)⟩
    obtain rfl : c.2 = t := by simpa [h, eq_comm] using (hcalls n c hc).2
    refine ⟨_, _, r, _, hloop _ _, ?_⟩
    rw [List.foldl_flip_cons_eq_append, List.append_nil, List.mem_reverse]
    exact List.mem_map_of_mem (List.mem_of_getElem? hc)

end FunLang.Machine

namespace FunLang.Layout

open FunLang.Parser

/-- The text of a legible expression is read as its surface. -/
theorem parseExpr_of_legible {Γ : CtorTable} {e : Expr} (h : e.Legible Γ) :
    (parseExpr (Text.encode (expr e)) Γ).2.diags = [] ∧
      (parseExpr (Text.encode (expr e)) Γ).1.unplaced = e.surface.unplaced := by
  have hsurface : expr e = expr e.surface := by
    unfold expr
    rw [Expr.surface_eq h.isWellFormed]
  rw [hsurface]
  exact parseExpr_expr h.isWellFormed

/-- **Every state that a run shows is source text.** A program without imports is read without an error
and run in the empty environment. Every state that the run shows is written as a text which is read
without a message, with the constructors of the program known, and as the surface of the state; unless
the program has no body and the state is the missing expression. -/
theorem parseExpr_of_shown {source : List UInt8}
    (h : Diagnostic.hasErrors (parseProgram source []).2.diags = false)
    (himports : (parseProgram source []).1.imports = []) {t : Machine.State}
    (ht : Machine.State.Shows ⟨.empty, .empty, (parseProgram source []).1.body⟩ t) :
    ((parseProgram source []).1.body = .missing ∧ t.expr = .missing) ∨
    (parseExpr (Text.encode (expr t.expr)) (.ofList (parseProgram source []).1.ctors)).2.diags = [] ∧
      (parseExpr (Text.encode (expr t.expr)) (.ofList (parseProgram source []).1.ctors)).1.unplaced
        = t.expr.surface.unplaced := by
  have hwf := isWellFormedIn_parseProgram h himports
  generalize (parseProgram source []).1 = p at hwf ht
  obtain ⟨n, hn⟩ := Machine.State.shows_iff.mp ht
  rcases hwf.body with hmissing | hbody
  · left
    rw [hmissing] at hn
    cases n with
    | zero =>
        simp only [Machine.State.after?, Option.some.injEq] at hn
        exact ⟨hmissing, hn ▸ rfl⟩
    | succ n => cases hn
  · right
    rw [CtorTable.ofList_eq_reverse]
    rw [List.append_nil] at hbody
    have hstart : Machine.State.Legible p.ctors.reverse ⟨.empty, .empty, p.body⟩ :=
      ⟨by simp [Store.Legible, Store.knotValue?, Store.empty], trivial,
        Expr.legible_of_isWellFormed hbody⟩
    exact parseExpr_of_legible (hstart.after? hn).expr

/-- A constructor is applied to the body of a function, which is under an environment of its own. -/
theorem parseExpr_of_shown_applied : ∃ (p : Program) (t : Machine.State),
    (parseProgram (Text.encode "data L = N | C L; C ((\\x -> C x) N)") []).1 = p ∧
    Machine.State.Shows ⟨.empty, .empty, p.body⟩ t ∧ expr t.expr = "C (C x)" ∧
    (parseExpr (Text.encode (expr t.expr)) (.ofList p.ctors)).2.diags = [] ∧
      (parseExpr (Text.encode (expr t.expr)) (.ofList p.ctors)).1.unplaced
        = t.expr.surface.unplaced := by
  have hparse : (parseProgram (Text.encode "data L = N | C L; C ((\\x -> C x) N)") []).1 = ⟨[],
      [⟨"L", [⟨"N", [], "L", ⟨1, 10⟩⟩, ⟨"C", [.name ⟨1, 16⟩ "L"], "L", ⟨1, 14⟩⟩], ⟨1, 1⟩⟩],
      .app ⟨1, 19⟩ (.ctor ⟨1, 19⟩ ⟨"C", [.name ⟨1, 16⟩ "L"], "L", ⟨1, 14⟩⟩) [.app ⟨1, 23⟩
        (.fn ⟨1, 23⟩ "x" (.app ⟨1, 29⟩ (.ctor ⟨1, 29⟩ ⟨"C", [.name ⟨1, 16⟩ "L"], "L", ⟨1, 14⟩⟩)
          [.var ⟨1, 31⟩ "x"]))
        [.ctor ⟨1, 34⟩ ⟨"N", [], "L", ⟨1, 10⟩⟩]]⟩ := rfl
  have hread := @parseExpr_of_shown _ (rfl)
    (show (parseProgram (Text.encode "data L = N | C L; C ((\\x -> C x) N)") []).1.imports = [] from rfl)
  rw [hparse] at hread
  refine ⟨_, _, hparse, Machine.State.shows_iff.mpr ⟨3, rfl⟩, rfl, ?_⟩
  rcases hread (Machine.State.shows_iff.mpr ⟨3, rfl⟩) with ⟨-, hmissing⟩ | hread
  · cases hmissing
  · exact hread

/-- A program that only declares data is read without an error, but not what its run shows. -/
theorem parseExpr_missing_shown : ∃ (p : Program) (t : Machine.State),
    (parseProgram (Text.encode "data T = A;") []).1 = p ∧
    Diagnostic.hasErrors (parseProgram (Text.encode "data T = A;") []).2.diags = false ∧
    p.imports = [] ∧ Machine.State.Shows ⟨.empty, .empty, p.body⟩ t ∧
    Diagnostic.hasErrors (parseExpr (Text.encode (expr t.expr)) (.ofList p.ctors)).2.diags = true := by
  have hparse : (parseProgram (Text.encode "data T = A;") []).1
      = ⟨[], [⟨"T", [⟨"A", [], "T", ⟨1, 10⟩⟩], ⟨1, 1⟩⟩], .missing⟩ := rfl
  exact ⟨_, _, hparse, rfl, rfl, Machine.State.shows_iff.mpr ⟨0, rfl⟩, rfl⟩

end FunLang.Layout
