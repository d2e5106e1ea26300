import FunLang.Proofs.Knots.Store
import FunLang.Proofs.Machine.Frames

set_option autoImplicit false

/-!
# Erasing annotations

`Expr.erased` takes the annotations out of an expression, and the applications to no argument, which do
as little. It does so at all depths, also in the values and environments that come up in an evaluation.

Everything that an evaluation does with values, environments and knots goes on in the same way after
erasing: what is looked up, matched, computed or shown is the erasure of what it was before.
-/

namespace FunLang

mutual

/-- An expression without annotations and without applications to no argument. -/
def Expr.erased : Expr → Expr
  | .binary p op l r => .binary p op l.erased r.erased
  | .cond p c t e => .cond p c.erased t.erased e.erased
  | .fn p x body => .fn p x body.erased
  | .app _ f [] => f.erased
  | .app p f (a :: rest) => .app p f.erased (a.erased :: Expr.erasedAll rest)
  | .letIn p x bound body => .letIn p x bound.erased body.erased
  | .annot _ e _ => e.erased
  | .cases p s alts => .cases p s.erased (Alt.erasedAll alts)
  | .value v => .value v.erased
  | .within env e => .within env.erased e.erased
  | .tying x k bound body => .tying x k bound.erased body.erased
  | e => e

def Expr.erasedAll : List Expr → List Expr
  | [] => []
  | e :: es => e.erased :: Expr.erasedAll es

def Alt.erasedAll : List Alt → List Alt
  | [] => []
  | .mk p pat e :: alts => .mk p pat e.erased :: Alt.erasedAll alts

/-- A value whose functions have been erased, and so have the environments in which they were made. -/
def Value.erased : Value → Value
  | .closure label x body env => .closure label x body.erased env.erased
  | .data c fields => .data c (Value.erasedAll fields)
  | v => v

def Value.erasedAll : List Value → List Value
  | [] => []
  | v :: vs => v.erased :: Value.erasedAll vs

def Env.erased : Env → Env
  | .empty => .empty
  | .bind env x v => .bind env.erased x v.erased
  | .bindKnot env x k => .bindKnot env.erased x k

end

/-! ## Values -/

theorem Value.erased_eq_absent_iff {v : Value} : v.erased = .absent ↔ v = .absent := by
  cases v <;> simp [Value.erased]

theorem Value.kind_erased (v : Value) : v.erased.kind = v.kind := by
  cases v <;> rfl

theorem Value.erasedAll_append (vs ws : List Value) :
    Value.erasedAll (vs ++ ws) = Value.erasedAll vs ++ Value.erasedAll ws := by
  induction vs with
  | nil => rfl
  | cons v vs ih => rw [List.cons_append, Value.erasedAll, ih, Value.erasedAll, List.cons_append]

theorem Value.isCompound_erased (v : Value) : v.erased.isCompound = v.isCompound := by
  cases v with
  | data c fields => cases fields <;> rfl
  | _ => rfl

mutual

theorem Value.render_erased : ∀ v : Value, v.erased.render = v.render
  | .absent => rfl
  | .int _ => rfl
  | .bool _ => rfl
  | .closure .. => rfl
  | .data c fields => by
      rw [Value.erased, Value.render, Value.render, Value.renderFields_erased fields]

theorem Value.renderFields_erased : ∀ vs : List Value,
    Value.renderFields (Value.erasedAll vs) = Value.renderFields vs
  | [] => rfl
  | v :: vs => by
      rw [Value.erasedAll, Value.renderFields_cons, Value.renderFields_cons, Value.isCompound_erased,
        Value.render_erased v, Value.renderFields_erased vs]

end

theorem BinOp.eval?_erased (op : BinOp) (a b : Value) :
    op.eval? a.erased b.erased = (op.eval? a b).map Value.erased := by
  cases a with
  | int m =>
      cases b with
      | int n => cases op <;> rfl
      | _ => cases op <;> rfl
  | _ => cases op <;> rfl

/-! ## Environments and the store -/

def Env.Binding.erased : Env.Binding → Env.Binding
  | .value v => .value v.erased
  | .knot k => .knot k

theorem Env.find?_erased (x : String) : ∀ env : Env,
    env.erased.find? x = (env.find? x).map Env.Binding.erased
  | .empty => rfl
  | .bind env y v => by
      rw [Env.erased, Env.find?, Env.find?, Env.find?_erased x env]
      by_cases hy : y = x
      · simp [hy, Env.Binding.erased]
      · simp [hy]
  | .bindKnot env y k => by
      rw [Env.erased, Env.find?, Env.find?, Env.find?_erased x env]
      by_cases hy : y = x
      · simp [hy, Env.Binding.erased]
      · simp [hy]

/-- Bindings of names to values without annotations. -/
def Env.erasedBindings (bs : List (String × Value)) : List (String × Value) :=
  bs.map fun b => (b.1, b.2.erased)

theorem Env.bindAll_erased (bs : List (String × Value)) (env : Env) :
    (env.bindAll bs).erased = env.erased.bindAll (Env.erasedBindings bs) := by
  induction bs generalizing env with
  | nil => rfl
  | cons b bs ih => exact ih (.bind env b.1 b.2)

namespace Store

/-- A store whose values have been erased. -/
def erased (σ : Store) : Store :=
  { σ with knots := σ.knots.map fun knot => { knot with value? := knot.value?.map Value.erased } }

theorem size_erased (σ : Store) : σ.erased.knots.size = σ.knots.size := by
  simp [erased]

theorem knotValue?_erased (σ : Store) (k : Nat) :
    σ.erased.knotValue? k = (σ.knotValue? k).map Value.erased := by
  unfold knotValue? erased
  rw [Array.getElem?_map]
  cases σ.knots[k]? <;> rfl

theorem addKnot_erased (σ : Store) (x : String) : (σ.addKnot x).erased = σ.erased.addKnot x := by
  simp [addKnot, erased]

theorem resolve_erased (σ : Store) (k : Nat) (v : Value) :
    (σ.resolve k v).erased = σ.erased.resolve k v.erased := by
  by_cases hv : v = .absent
  · subst hv
    rfl
  · rw [resolve_of_ne σ k hv, resolve_of_ne σ.erased k (mt Value.erased_eq_absent_iff.mp hv)]
    simp only [erased, Store.mk.injEq, and_true]
    apply Array.ext_getElem?
    intro i
    simp only [Array.getElem?_map, Array.getElem?_modify]
    by_cases hi : k = i
    · cases σ.knots[i]? with
      | none => simp [hi]
      | some knot => cases hknot : knot.value? <;> simp [hi, hknot]
    · simp [hi]

end Store

def Lookup.erased : Lookup → Lookup
  | .unbound => .unbound
  | .unresolved => .unresolved
  | .found v => .found v.erased

theorem Env.lookup_erased (σ : Store) (env : Env) (x : String) :
    env.erased.lookup σ.erased x = (env.lookup σ x).erased := by
  unfold Env.lookup
  rw [Env.find?_erased]
  cases env.find? x with
  | none => rfl
  | some b =>
      cases b with
      | value v => rfl
      | knot k =>
          simp only [Option.map_some, Env.Binding.erased, Store.knotValue?_erased]
          cases σ.knotValue? k <;> rfl

/-! ## Matching -/

mutual

theorem Pattern.bindings?_erased : ∀ (p : Pattern) (v : Value),
    p.bindings? v.erased = (p.bindings? v).map Env.erasedBindings
  | .missing, v => by simp [Pattern.bindings?]
  | .int _ n, v => by
      cases v with
      | int m =>
          simp only [Value.erased, Pattern.bindings?]
          split <;> rfl
      | _ => simp [Value.erased, Pattern.bindings?]
  | .bool _ b, v => by
      cases v with
      | bool c =>
          simp only [Value.erased, Pattern.bindings?]
          split <;> rfl
      | _ => simp [Value.erased, Pattern.bindings?]
  | .var _ x, v => by simp [Pattern.bindings?, Env.erasedBindings]
  | .ctor _ c ps, v => by
      cases v with
      | data d vs =>
          simp only [Value.erased, Pattern.bindings?, Pattern.bindingsAll?_erased ps vs]
          split <;> rfl
      | _ => simp [Value.erased, Pattern.bindings?]

theorem Pattern.bindingsAll?_erased : ∀ (ps : List Pattern) (vs : List Value),
    Pattern.bindingsAll? ps (Value.erasedAll vs)
      = (Pattern.bindingsAll? ps vs).map Env.erasedBindings
  | [], [] => rfl
  | [], _ :: _ => rfl
  | _ :: _, [] => rfl
  | p :: ps, v :: vs => by
      rw [Value.erasedAll, Pattern.bindingsAll?, Pattern.bindingsAll?, Pattern.bindings?_erased p v,
        Pattern.bindingsAll?_erased ps vs]
      cases p.bindings? v with
      | none => rfl
      | some bs =>
          cases Pattern.bindingsAll? ps vs with
          | none => rfl
          | some cs => simp [Env.erasedBindings]

end

theorem Alt.select?_erased (alts : List Alt) (v : Value) :
    Alt.select? (Alt.erasedAll alts) v.erased
      = (Alt.select? alts v).map fun r => (r.1.erased, Env.erasedBindings r.2) := by
  induction alts with
  | nil => rfl
  | cons a alts ih =>
      obtain ⟨p, pat, e⟩ := a
      rw [Alt.erasedAll, Alt.select?, Alt.select?, Pattern.bindings?_erased]
      cases pat.bindings? v with
      | none => exact ih
      | some bs => rfl

end FunLang
