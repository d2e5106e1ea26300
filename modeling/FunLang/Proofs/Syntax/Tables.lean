import FunLang.Parser.State
import Mathlib.Tactic

set_option autoImplicit false

/-!
# Tables of constructors

What a name stands for in a table of constructors.
-/

namespace FunLang.CtorTable

variable {Γ : CtorTable} {x : String}

theorem foldl_insert_eq (cs : List Constructor) (Γ : CtorTable) :
    cs.foldl insert Γ = cs.reverse ++ Γ := by
  induction cs generalizing Γ with
  | nil => rfl
  | cons c cs ih => simp [ih, insert]

theorem ofList_eq_reverse (cs : List Constructor) : ofList cs = cs.reverse := by
  rw [ofList, foldl_insert_eq, List.append_nil]

theorem find?_eq_none_iff : Γ.find? x = none ↔ x ∉ Γ.map Constructor.name := by
  simp [find?]

/-- If different constructors have different names, a name stands for the constructor that has it. -/
theorem find?_eq_some_iff (h : ∀ c ∈ Γ, ∀ c' ∈ Γ, c.name = c'.name → c = c') {c : Constructor} :
    Γ.find? x = some c ↔ c ∈ Γ ∧ c.name = x := by
  constructor
  · intro hfind
    exact ⟨List.mem_of_find?_eq_some hfind, by simpa using List.find?_some hfind⟩
  · rintro ⟨hc, hx⟩
    cases hfind : Γ.find? x with
    | none => exact absurd (List.mem_map.mpr ⟨c, hc, hx⟩) (find?_eq_none_iff.mp hfind)
    | some c' =>
        have hx' : c'.name = x := by simpa using List.find?_some hfind
        rw [h c' (List.mem_of_find?_eq_some hfind) c hc (hx'.trans hx.symm)]

/-- Names that are new to a table and differ from each other. -/
structure New (Γ : CtorTable) (names : List String) : Prop where
  nodup : names.Nodup
  unknown : ∀ x ∈ names, x ∉ Γ.map Constructor.name

theorem new_nil : Γ.New [] := ⟨List.nodup_nil, by simp⟩

/-- The names are new one after the other, each with those before it known. -/
theorem new_cons {c : Constructor} {names : List String} :
    Γ.New (c.name :: names) ↔ Γ.find? c.name = none ∧ (Γ.insert c).New names := by
  rw [find?_eq_none_iff]
  constructor
  · rintro ⟨hnodup, hunknown⟩
    obtain ⟨hc, hnodup⟩ := List.nodup_cons.mp hnodup
    obtain ⟨hnew, hunknown⟩ := List.forall_mem_cons.mp hunknown
    refine ⟨hnew, hnodup, fun x hx => ?_⟩
    rw [insert, List.map_cons, List.mem_cons, not_or]
    exact ⟨fun heq => hc (heq ▸ hx), hunknown x hx⟩
  · rintro ⟨hnew, hnodup, hunknown⟩
    simp only [insert, List.map_cons, List.mem_cons, not_or] at hunknown
    refine ⟨List.nodup_cons.mpr ⟨fun hc => (hunknown c.name hc).1 rfl, hnodup⟩, ?_⟩
    exact List.forall_mem_cons.mpr ⟨hnew, fun x hx => (hunknown x hx).2⟩

theorem new_append {cs : List Constructor} {names : List String} :
    Γ.New (cs.map Constructor.name ++ names) ↔
      Γ.New (cs.map Constructor.name) ∧ New (cs.reverse ++ Γ) names := by
  induction cs generalizing Γ with
  | nil => simp [new_nil]
  | cons c cs ih =>
      rw [List.map_cons, List.cons_append, new_cons, new_cons, ih, and_assoc, List.reverse_cons,
        List.append_assoc]
      rfl

end FunLang.CtorTable
