import FunLang.Machine.Matching
import Mathlib.Tactic

set_option autoImplicit false

/-!
# What a match binds

The names of a pattern are bound to parts of the value that it matches. So a property that goes over
from a constructed value to its fields holds for everything that a match binds. The parts of the pattern
itself match parts of the value too. And a relation between values that goes over to the fields goes over
to what is bound (`Pattern.bindings?_rel`).
-/

namespace FunLang

mutual

/-- What a pattern binds are parts of the value it matches. -/
theorem Pattern.bindings?_forall {P : Value → Prop}
    (hP : ∀ c fields, P (.data c fields) → ∀ v ∈ fields, P v) :
    ∀ {p : Pattern} {v : Value} {bs : List (String × Value)},
      p.bindings? v = some bs → P v → ∀ b ∈ bs, P b.2
  | .missing, v, bs, h, _ => by simp [Pattern.bindings?] at h
  | .int _ n, v, bs, h, _ => by
      cases v with
      | int m =>
          simp only [Pattern.bindings?, Option.ite_none_right_eq_some, Option.some.injEq] at h
          simp [← h.2]
      | _ => simp [Pattern.bindings?] at h
  | .bool _ c, v, bs, h, _ => by
      cases v with
      | bool d =>
          simp only [Pattern.bindings?, Option.ite_none_right_eq_some, Option.some.injEq] at h
          simp [← h.2]
      | _ => simp [Pattern.bindings?] at h
  | .var _ x, v, bs, h, hv => by
      simp only [Pattern.bindings?, Option.some.injEq] at h
      simpa [← h] using hv
  | .ctor _ c ps, v, bs, h, hv => by
      cases v with
      | data d vs =>
          simp only [Pattern.bindings?, Option.ite_none_right_eq_some] at h
          exact Pattern.bindingsAll?_forall hP h.2 (hP d vs hv)
      | _ => simp [Pattern.bindings?] at h

theorem Pattern.bindingsAll?_forall {P : Value → Prop}
    (hP : ∀ c fields, P (.data c fields) → ∀ v ∈ fields, P v) :
    ∀ {ps : List Pattern} {vs : List Value} {bs : List (String × Value)},
      Pattern.bindingsAll? ps vs = some bs → (∀ v ∈ vs, P v) → ∀ b ∈ bs, P b.2
  | [], [], bs, h, _ => by
      simp only [Pattern.bindingsAll?, Option.some.injEq] at h
      simp [← h]
  | [], _ :: _, bs, h, _ => by simp [Pattern.bindingsAll?] at h
  | _ :: _, [], bs, h, _ => by simp [Pattern.bindingsAll?] at h
  | p :: ps, v :: vs, bs, h, hvs => by
      unfold Pattern.bindingsAll? at h
      cases hp : p.bindings? v with
      | none => simp [hp] at h
      | some bs₁ =>
          cases hps : Pattern.bindingsAll? ps vs with
          | none => simp [hp, hps] at h
          | some bs₂ =>
              simp only [hp, hps, Option.some.injEq] at h
              have h₁ := Pattern.bindings?_forall hP hp (hvs v (by simp))
              have h₂ := Pattern.bindingsAll?_forall hP hps fun w hw => hvs w (by simp [hw])
              rw [← h]
              intro b hb
              rcases List.mem_append.mp hb with hb | hb
              · exact h₁ b hb
              · exact h₂ b hb

end

mutual

/-- The names that a match binds are those of the pattern. -/
theorem Pattern.names_of_bindings? : ∀ {p : Pattern} {v : Value} {bs : List (String × Value)},
    p.bindings? v = some bs → bs.map Prod.fst = p.binders
  | .missing, v, bs, h => by simp [Pattern.bindings?] at h
  | .int _ n, v, bs, h => by
      cases v with
      | int m =>
          simp only [Pattern.bindings?, Option.ite_none_right_eq_some, Option.some.injEq] at h
          simp [← h.2, Pattern.binders]
      | _ => simp [Pattern.bindings?] at h
  | .bool _ c, v, bs, h => by
      cases v with
      | bool d =>
          simp only [Pattern.bindings?, Option.ite_none_right_eq_some, Option.some.injEq] at h
          simp [← h.2, Pattern.binders]
      | _ => simp [Pattern.bindings?] at h
  | .var _ x, v, bs, h => by
      simp only [Pattern.bindings?, Option.some.injEq] at h
      simp [← h, Pattern.binders]
  | .ctor _ c ps, v, bs, h => by
      cases v with
      | data d vs =>
          simp only [Pattern.bindings?, Option.ite_none_right_eq_some] at h
          exact Pattern.names_of_bindingsAll? h.2
      | _ => simp [Pattern.bindings?] at h

theorem Pattern.names_of_bindingsAll? : ∀ {ps : List Pattern} {vs : List Value}
    {bs : List (String × Value)}, Pattern.bindingsAll? ps vs = some bs →
      bs.map Prod.fst = Pattern.bindersAll ps
  | [], [], bs, h => by
      simp only [Pattern.bindingsAll?, Option.some.injEq] at h
      simp [← h, Pattern.bindersAll]
  | [], _ :: _, bs, h => by simp [Pattern.bindingsAll?] at h
  | _ :: _, [], bs, h => by simp [Pattern.bindingsAll?] at h
  | p :: ps, v :: vs, bs, h => by
      unfold Pattern.bindingsAll? at h
      cases hp : p.bindings? v with
      | none => simp [hp] at h
      | some bs₁ =>
          cases hps : Pattern.bindingsAll? ps vs with
          | none => simp [hp, hps] at h
          | some bs₂ =>
              simp only [hp, hps, Option.some.injEq] at h
              rw [← h, List.map_append, Pattern.names_of_bindings? hp, Pattern.names_of_bindingsAll? hps,
                Pattern.bindersAll]

end

/-! ## Related values -/

/-- Values of the same form: the same literal, constructors of one name with related fields, two
functions, or two values that are absent. -/
inductive Value.Rel (R : Value → Value → Prop) : Value → Value → Prop where
  | absent : Value.Rel R .absent .absent
  | int (n : Int64) : Value.Rel R (.int n) (.int n)
  | bool (b : Bool) : Value.Rel R (.bool b) (.bool b)
  | closure {label label' : Nat} {x x' : String} {body body' : Expr} {env env' : Env} :
      Value.Rel R (.closure label x body env) (.closure label' x' body' env')
  | data {c d : Constructor} {vs ws : List Value} (hname : d.name = c.name) (hs : List.Forall₂ R vs ws) :
      Value.Rel R (.data c vs) (.data d ws)

/-- The same names bound to related values, in the same order. -/
def BindingsRel (R : Value → Value → Prop) (bs cs : List (String × Value)) : Prop :=
  List.Forall₂ (fun b c => c.1 = b.1 ∧ R b.2 c.2) bs cs

mutual

/-- Where only values of the same form are related, a pattern matches both of two related values or
neither, and its names are bound to related values. -/
theorem Pattern.bindings?_rel {R : Value → Value → Prop} (hR : ∀ {v w}, R v w → Value.Rel R v w) :
    ∀ (p : Pattern) {v w : Value}, R v w →
      Option.Rel (BindingsRel R) (p.bindings? v) (p.bindings? w)
  | .missing, v, w, _ => by
      simp only [Pattern.bindings?]
      exact .none
  | .int _ n, v, w, h => by
      cases hR h with
      | int m =>
          simp only [Pattern.bindings?]
          split
          · exact .some .nil
          · exact .none
      | _ =>
          simp only [Pattern.bindings?]
          exact .none
  | .bool _ b, v, w, h => by
      cases hR h with
      | bool c =>
          simp only [Pattern.bindings?]
          split
          · exact .some .nil
          · exact .none
      | _ =>
          simp only [Pattern.bindings?]
          exact .none
  | .var _ x, v, w, h => by
      simp only [Pattern.bindings?]
      exact .some (.cons ⟨rfl, h⟩ .nil)
  | .ctor _ c ps, v, w, h => by
      cases hR h with
      | @data d d' _ _ hname hs =>
          have hsame : c.same d' = c.same d := by rw [Constructor.same, Constructor.same, hname]
          simp only [Pattern.bindings?, hsame]
          by_cases hc : c.same d = true
          · simpa only [hc, if_true] using Pattern.bindingsAll?_rel hR ps hs
          · simpa only [hc] using .none
      | _ =>
          simp only [Pattern.bindings?]
          exact .none

theorem Pattern.bindingsAll?_rel {R : Value → Value → Prop} (hR : ∀ {v w}, R v w → Value.Rel R v w) :
    ∀ (ps : List Pattern) {vs ws : List Value}, List.Forall₂ R vs ws →
      Option.Rel (BindingsRel R) (Pattern.bindingsAll? ps vs) (Pattern.bindingsAll? ps ws)
  | [], _, _, .nil => .some .nil
  | [], _, _, .cons _ _ => .none
  | _ :: _, _, _, .nil => .none
  | p :: ps, v :: vs, w :: ws, .cons h hs => by
      have hp := Pattern.bindings?_rel hR p h
      have hps := Pattern.bindingsAll?_rel hR ps hs
      unfold Pattern.bindingsAll?
      generalize p.bindings? v = r, p.bindings? w = r' at hp ⊢
      generalize Pattern.bindingsAll? ps vs = rs, Pattern.bindingsAll? ps ws = rs' at hps ⊢
      cases hp with
      | none => exact .none
      | some hp =>
          cases hps with
          | none => exact .none
          | some hps => exact .some (List.rel_append hp hps)

end

/-- The expression that is taken is the body of an alternative whose pattern matches. -/
theorem Alt.exists_of_select? {alts : List Alt} {v : Value} {e : Expr} {bs : List (String × Value)}
    (h : Alt.select? alts v = some (e, bs)) :
    ∃ p pat, Alt.mk p pat e ∈ alts ∧ pat.bindings? v = some bs := by
  induction alts with
  | nil => simp [Alt.select?] at h
  | cons a alts ih =>
      obtain ⟨p, pat, body⟩ := a
      unfold Alt.select? at h
      cases hp : pat.bindings? v with
      | none =>
          simp only [hp] at h
          obtain ⟨p', pat', hmem, hbs⟩ := ih h
          exact ⟨p', pat', List.mem_cons_of_mem _ hmem, hbs⟩
      | some bs' =>
          simp only [hp, Option.some.injEq, Prod.mk.injEq] at h
          obtain ⟨rfl, rfl⟩ := h
          exact ⟨p, pat, List.mem_cons_self, hp⟩

/-! ## Parts -/

/-- A part of a pattern: the pattern itself, or an argument of a part. -/
inductive Pattern.Part (top : Pattern) : Pattern → Prop where
  | refl : Part top top
  | arg {p : Pos} {c : Constructor} {args : List Pattern} {a : Pattern} (h : Part top (.ctor p c args))
      (ha : a ∈ args) : Part top a

/-- A part of a value: the value itself, or a field of a part. -/
inductive Value.Part (top : Value) : Value → Prop where
  | refl : Part top top
  | field {c : Constructor} {fields : List Value} {v : Value} (h : Part top (.data c fields))
      (hv : v ∈ fields) : Part top v

theorem Value.Part.trans {top v w : Value} (hv : top.Part v) (hw : v.Part w) : top.Part w := by
  induction hw with
  | refl => exact hv
  | field _ hmem ih => exact .field ih hmem

theorem Pattern.exists_of_bindingsAll? {ps : List Pattern} {vs : List Value} {bs : List (String × Value)}
    (h : Pattern.bindingsAll? ps vs = some bs) :
    ps.length = vs.length ∧ ∀ p ∈ ps, ∃ v ∈ vs, (p.bindings? v).isSome = true := by
  induction ps generalizing vs bs with
  | nil =>
      cases vs with
      | nil => exact ⟨rfl, by simp⟩
      | cons v vs => simp [Pattern.bindingsAll?] at h
  | cons p ps ih =>
      cases vs with
      | nil => simp [Pattern.bindingsAll?] at h
      | cons v vs =>
          unfold Pattern.bindingsAll? at h
          cases hp : p.bindings? v with
          | none => simp [hp] at h
          | some bs₁ =>
              cases hps : Pattern.bindingsAll? ps vs with
              | none => simp [hp, hps] at h
              | some bs₂ =>
                  obtain ⟨hlength, hall⟩ := ih hps
                  refine ⟨by simp [hlength], fun q hq => ?_⟩
                  rcases List.mem_cons.mp hq with rfl | hq
                  · exact ⟨v, by simp, by simp [hp]⟩
                  · obtain ⟨w, hw, hmatch⟩ := hall q hq
                    exact ⟨w, by simp [hw], hmatch⟩

/-- A constructor matches a constructed value with the same name and as many fields as it has arguments. -/
theorem Pattern.exists_of_bindings?_ctor {p : Pos} {c : Constructor} {args : List Pattern} {v : Value}
    (h : ((Pattern.ctor p c args).bindings? v).isSome = true) :
    ∃ d fields, v = .data d fields ∧ c.same d = true ∧ args.length = fields.length ∧
      ∀ a ∈ args, ∃ w ∈ fields, (a.bindings? w).isSome = true := by
  cases v with
  | data d fields =>
      unfold Pattern.bindings? at h
      split at h
      · rename_i hsame
        obtain ⟨bs, hbs⟩ := Option.isSome_iff_exists.mp h
        obtain ⟨hlength, hall⟩ := Pattern.exists_of_bindingsAll? hbs
        exact ⟨d, fields, rfl, hsame, hlength, hall⟩
      · simp at h
  | _ => simp [Pattern.bindings?] at h

/-- The parts of a pattern that matches match parts of the value. -/
theorem Pattern.Part.exists_part {top q : Pattern} {v : Value} (hpart : top.Part q)
    (h : (top.bindings? v).isSome = true) : ∃ w, v.Part w ∧ (q.bindings? w).isSome = true := by
  induction hpart with
  | refl => exact ⟨v, .refl, h⟩
  | @arg p c args a _ ha ih =>
      obtain ⟨w, hw, hmatch⟩ := ih
      obtain ⟨d, fields, rfl, -, -, hall⟩ := Pattern.exists_of_bindings?_ctor hmatch
      obtain ⟨u, hu, hmatch⟩ := hall a ha
      exact ⟨u, .field hw hu, hmatch⟩

/-! ## Choosing an alternative -/

/-- The scan for a value ends with an alternative: it finds nothing before it and something with it. -/
def Alt.Selects (v : Value) (before : List Alt) (a : Alt) : Prop :=
  Alt.select? before v = none ∧ Alt.select? (before ++ [a]) v ≠ none

theorem Alt.select?_eq_none_iff {alts : List Alt} {v : Value} :
    Alt.select? alts v = none ↔ ∀ a ∈ alts, a.pattern.bindings? v = none := by
  induction alts with
  | nil => simp [Alt.select?]
  | cons a alts ih =>
      obtain ⟨p, pat, e⟩ := a
      unfold Alt.select?
      cases hpat : pat.bindings? v with
      | none => simp [ih, Alt.pattern, hpat]
      | some bs => simp [Alt.pattern, hpat]

theorem Alt.Selects.not_before {v : Value} {before : List Alt} {a b : Alt} (h : Alt.Selects v before a)
    (hb : b ∈ before) : b.pattern.bindings? v = none :=
  Alt.select?_eq_none_iff.mp h.1 b hb

theorem Alt.Selects.isSome {v : Value} {before : List Alt} {a : Alt} (h : Alt.Selects v before a) :
    (a.pattern.bindings? v).isSome = true := by
  by_contra hnone
  refine h.2 (Alt.select?_eq_none_iff.mpr fun b hb => ?_)
  rcases List.mem_append.mp hb with hb | hb
  · exact h.not_before hb
  · rw [List.mem_singleton.mp hb]
    simpa using hnone

end FunLang
