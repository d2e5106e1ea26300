import FunLang.Layout
import FunLang.Value

set_option autoImplicit false

/-!
# The text of a value

A value has a text of its own, and it has the text of the expression that would produce it. Parentheses
come about in different ways. Among the fields of a value they are put around negative numbers and
around constructors with fields; in an expression they follow from the level of the place and from how
strongly the form binds that stands there.

The two texts are the same if no part of the value is a function or absent. This holds for the value as
a whole (`Value.render_eq_exprAt`), and for its fields and the arguments of an application
(`Value.renderFields_eq_args`); each of the two follows from the other one level further down.
-/

namespace FunLang

/-! ## Values without functions -/

mutual

/-- No part of the value is a function, and none is absent. -/
def Value.isGround : Value → Bool
  | .int _ | .bool _ => true
  | .data _ fields => Value.areGround fields
  | .closure .. | .absent => false

def Value.areGround : List Value → Bool
  | [] => true
  | v :: vs => v.isGround && Value.areGround vs

end

/-! ## Places among others -/

/-- Fields are shown one by one. -/
theorem Value.renderFields_append (vs ws : List Value) :
    Value.renderFields (vs ++ ws) = Value.renderFields vs ++ Value.renderFields ws := by
  induction vs with
  | nil => rw [List.nil_append, Value.renderFields, String.empty_append]
  | cons v vs ih =>
      rw [List.cons_append, Value.renderFields_cons, Value.renderFields_cons, ih, ← String.append_assoc]

namespace Layout

theorem args_append (es es' : List Expr) : args (es ++ es') = args es ++ args es' := by
  induction es with
  | nil => rw [List.nil_append, args, String.empty_append]
  | cons e es ih => rw [List.cons_append, args, args, ih, ← String.append_assoc]

/-- An application to at least one argument is the function with the arguments after it. -/
theorem exprAt_app {place : Nat} {p : Pos} {f : Expr} {es : List Expr} (h : es ≠ []) :
    exprAt place (.app p f es) = parenIf (application < place) (exprAt atomic f ++ args es) := by
  obtain ⟨e, es, rfl⟩ := List.exists_cons_of_ne_nil h
  rw [exprAt, args]
  simp only [String.append_assoc]

end Layout

theorem surfaceAll_append (es es' : List Expr) :
    surfaceAll (es ++ es') = surfaceAll es ++ surfaceAll es' := by
  induction es with
  | nil => rfl
  | cons e es ih => rw [List.cons_append, surfaceAll, surfaceAll, ih, List.cons_append]

/-! ## One text -/

/-- A value that is an argument is in parentheses if it is compound. -/
theorem Value.exprAt_atomic_surface {v : Value} (h : v.isGround = true) :
    Layout.exprAt Layout.atomic v.surface
      = if v.isCompound then "(" ++ Layout.exprAt Layout.top v.surface ++ ")"
        else Layout.exprAt Layout.top v.surface := by
  cases v with
  | int n => by_cases hn : n < 0 <;> simp [Value.surface, Layout.exprAt, Layout.int, Layout.parenIf,
      Layout.application, Layout.atomic, Layout.top, Value.isCompound, hn]
  | bool b => rfl
  | data c fields =>
      cases fields with
      | nil => rfl
      | cons f fs => simp [Value.surface, Layout.exprAt, Layout.parenIf, Layout.application,
          Layout.atomic, Layout.top, Value.isCompound]
  | closure => simp [Value.isGround] at h
  | absent => simp [Value.isGround] at h

mutual

/-- A value is shown by the layout of the expression that produces it. -/
theorem Value.render_eq_exprAt : ∀ {v : Value}, v.isGround = true →
    v.render = Layout.exprAt Layout.top v.surface
  | .int n, _ => rfl
  | .bool b, _ => rfl
  | .data c [], _ => by
      rw [Value.render, Value.renderFields, Value.surface, Layout.exprAt, String.append_empty]
  | .data c (v :: vs), h => by
      rw [Value.isGround] at h
      rw [Value.render, Value.renderFields_eq_args h, Value.surface, ← surfaceValues,
        Layout.exprAt_app (by simp [surfaceValues]), Layout.exprAt]
      rfl

theorem Value.renderFields_eq_args : ∀ {vs : List Value}, Value.areGround vs = true →
    Value.renderFields vs = Layout.args (surfaceValues vs)
  | [], _ => rfl
  | v :: vs, h => by
      simp only [Value.areGround, Bool.and_eq_true] at h
      have hopen : " (" = " " ++ "(" := rfl
      rw [Value.renderFields_cons, surfaceValues, Layout.args, Value.exprAt_atomic_surface h.1,
        Value.render_eq_exprAt h.1, Value.renderFields_eq_args h.2, hopen]
      cases v.isCompound
      · rfl
      · simp only [if_true, String.append_assoc]

end

/-- **A value has one text.** A value without functions and absent parts is shown alike as a value and
as an expression. As an argument of an application it has the text in the layout that it has as a field
of another value, whatever stands beside it. -/
theorem Value.layout_eq_render {v : Value} (h : v.isGround = true) :
    Layout.expr (.value v) = v.render ∧
    (∀ (place : Nat) (p : Pos) (f : Expr) (before after : List Expr),
      Layout.exprAt place (Expr.app p f (before ++ .value v :: after)).surface
        = Layout.parenIf (Layout.application < place)
            (Layout.exprAt Layout.atomic f.surface ++ Layout.args (surfaceAll before)
              ++ Value.renderFields [v] ++ Layout.args (surfaceAll after))) ∧
    ∀ (c : Constructor) (before after : List Value),
      (Value.data c (before ++ v :: after)).render
        = (Value.data c before).render ++ Value.renderFields [v] ++ Value.renderFields after := by
  refine ⟨(Value.render_eq_exprAt h).symm, ?_, ?_⟩
  · intro place p f before after
    have hfield : Value.renderFields [v] = Layout.args [v.surface] :=
      Value.renderFields_eq_args (by rw [Value.areGround, h, Value.areGround, Bool.and_true])
    have hargs : surfaceAll (before ++ .value v :: after)
        = surfaceAll before ++ [v.surface] ++ surfaceAll after := by
      rw [surfaceAll_append, surfaceAll, Expr.surface, List.append_assoc, List.singleton_append]
    rw [Expr.surface, hargs, Layout.exprAt_app (by simp), Layout.args_append, Layout.args_append, hfield,
      String.append_assoc, String.append_assoc, String.append_assoc]
  · intro c before after
    rw [Value.render, Value.render, ← List.singleton_append, Value.renderFields_append,
      Value.renderFields_append, String.append_assoc, String.append_assoc]

/-- The least integer and constructed values with and without fields, as a whole and beside others. -/
theorem Value.layout_eq_render_nested :
    let pair : Constructor := ⟨"Pair", [.name .unknown "Int", .name .unknown "T"], "T", .unknown⟩
    let leaf : Constructor := ⟨"Leaf", [], "T", .unknown⟩
    let v : Value := .data pair [.int Int64.minValue, .data leaf [], .data pair [.int 1]]
    v.isGround = true ∧ Layout.expr (.value v) = v.render ∧
      v.render = "Pair (-9223372036854775808) Leaf (Pair 1)" ∧
      Layout.expr (.app .unknown (.var .unknown "f") [.int .unknown (-1), .value v])
        = "f (-1)" ++ Value.renderFields [v] ∧
      (Value.data leaf [.bool true, v]).render = "Leaf true" ++ Value.renderFields [v] := by
  intro pair leaf v
  have hv : v.isGround = true := by decide
  obtain ⟨hwhole, hargument, hfield⟩ := Value.layout_eq_render hv
  refine ⟨hv, hwhole, rfl, ?_, ?_⟩
  · exact hargument Layout.top .unknown (.var .unknown "f") [.int .unknown (-1)] []
  · exact hfield leaf [.bool true] []

end FunLang
