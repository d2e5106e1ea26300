import FunLang.Text.Part
import Mathlib.Tactic

set_option autoImplicit false

/-!
# Where a part of a text lies

A text that stands in two others, one after the other, stands in one of them or across the border. The
latter needs a beginning of it at the end of the first text. A frame for a text is a pair of others,
before and after it, that rule this out (`isFrame`): what is looked for then stands in the framed text
exactly if it stands in the text itself (`occursIn_framed_iff`).
-/

namespace FunLang.Text

theorem occurs_iff {part cs : List Char} : occurs part cs = true ↔ part <:+: cs := by
  induction cs with
  | nil => simp [occurs]
  | cons c cs ih => simp [occurs, List.infix_cons_iff, ih]

theorem infix_of_infix_append {part a b : List Char} (h : part <:+: a ++ b) :
    part <:+: a ∨ part <:+: b ∨ ∃ x y, part = x ++ y ∧ x ≠ [] ∧ y ≠ [] ∧ x <:+ a ∧ y <+: b := by
  obtain ⟨s, t, heq⟩ := h
  rcases List.append_eq_append_iff.mp heq with ⟨u, ha, -⟩ | ⟨u, hu, hb⟩
  · exact Or.inl ⟨s, u, ha.symm⟩
  · rcases List.append_eq_append_iff.mp hu with ⟨x, ha, hx⟩ | ⟨x, -, hx⟩
    · -- the part begins in `a` with `x` and goes on in `b` with `u`
      by_cases hxnil : x = []
      · refine Or.inr (Or.inl ⟨[], t, ?_⟩)
        rw [hb, hx, hxnil]
        rfl
      · by_cases hunil : u = []
        · refine Or.inl ⟨s, [], ?_⟩
          rw [hx, hunil, ha]
          simp
        · exact Or.inr (Or.inr ⟨x, u, hx, hxnil, hunil, ⟨s, ha.symm⟩, ⟨t, hb.symm⟩⟩)
    · exact Or.inr (Or.inl ⟨x, t, by rw [hb, hx]⟩)

/-- No beginning of the part ends the first text and no ending of it begins the second, and it stands in
neither. -/
def isFrame (part before after : String) : Bool :=
  !occursIn part before && !occursIn part after &&
    part.toList.inits.all (fun x => x.isEmpty || !x.isSuffixOf before.toList) &&
    part.toList.tails.all (fun y => y.isEmpty || !y.isPrefixOf after.toList)

theorem occursIn_framed_iff {part before after : String} (h : isFrame part before after = true)
    (s : String) : occursIn part (before ++ s ++ after) = true ↔ occursIn part s = true := by
  simp only [isFrame, occursIn, Bool.and_eq_true, Bool.not_eq_true', ← Bool.not_eq_true, occurs_iff,
    List.all_eq_true, List.mem_inits, List.mem_tails, Bool.or_eq_true, List.isEmpty_iff,
    List.isSuffixOf_iff_suffix, List.isPrefixOf_iff_prefix] at h
  obtain ⟨⟨⟨hbefore, hafter⟩, hinits⟩, htails⟩ := h
  simp only [occursIn, occurs_iff, String.toList_append]
  constructor
  · intro hocc
    have hfront : part.toList <:+: before.toList ++ s.toList := by
      rcases infix_of_infix_append hocc with h | h | ⟨x, y, hpart, -, hy, -, hyafter⟩
      · exact h
      · exact absurd h hafter
      · exact absurd hyafter ((htails y ⟨x, hpart.symm⟩).resolve_left hy)
    rcases infix_of_infix_append hfront with h | h | ⟨x, y, hpart, hx, -, hxbefore, -⟩
    · exact absurd h hbefore
    · exact h
    · exact absurd hxbefore ((hinits x ⟨y, hpart.symm⟩).resolve_left hx)
  · intro hocc
    exact hocc.trans ⟨before.toList, after.toList, rfl⟩

theorem length_le_of_occursIn {part s : String} (h : occursIn part s = true) :
    part.toList.length ≤ s.toList.length :=
  (occurs_iff.mp h).length_le

theorem mem_of_occursIn {part s : String} (h : occursIn part s = true) {c : Char}
    (hc : c ∈ part.toList) : c ∈ s.toList :=
  (occurs_iff.mp h).subset hc

end FunLang.Text
