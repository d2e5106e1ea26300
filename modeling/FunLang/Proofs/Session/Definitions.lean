import FunLang.Proofs.Twins.Evaluations
import FunLang.Session

set_option autoImplicit false

/-!
# Definitions of a session and nested lets

A session evaluates a definition by itself and binds its value for the lines that follow, while a `let`
makes a knot for its name and evaluates its bound expression under it. The two go side by side. For
the definition of a function the session makes a knot as well, since it evaluates a `let` of its own.
For any other definition it makes none, and the knot of the `let` is never asked for if the name is not
free in the bound expression.
-/

namespace FunLang

/-- The nested `let`s of some definitions around an expression. -/
def Expr.letIns (p : Pos) : List (String × Expr) → Expr → Expr
  | [], e => e
  | d :: ds, e => .letIn p d.1 d.2 (Expr.letIns p ds e)

/-- The definitions of a session and those of the `let`s around an expression, after the same lines: every
name is bound alike. -/
structure Pairing.Beside (π : Pairing) (env env' : Env) : Prop where
  linked : π.Linked
  made : π.Made
  names : ∀ y, env.TwinAt π env' y

/-- What comes of a definition of `x` in a session and of the bound expression of a `let` whose knot is
`l`. -/
inductive Pairing.Defined (env env' : Env) (x : String) (l : Nat) : Outcome → Outcome → Prop where
  | failure (f : Failure) : Pairing.Defined env env' x l (.failure f) (.failure f)
  | value {π : Pairing} {v v' : Value} {τ : Store} (hright : π.right = τ.resolve l v')
      (h : π.Beside (.bind env x v) (.bind env' x v')) :
      Pairing.Defined env env' x l (.value v π.left) (.value v' τ)

variable {π : Pairing} {env env' : Env} {x : String} {e : Expr}

theorem Pairing.beside_start : (Pairing.start True).Beside .empty .empty :=
  ⟨Pairing.linked_start True, nofun, fun _ => .unbound trivial rfl rfl⟩

/-- An expression is evaluated on both sides alike. -/
theorem Pairing.Beside.twin (h : π.Beside env env') (he : e.isSource = true) :
    Machine.State.Twin π ⟨π.left, env, e⟩ ⟨π.right, env', e⟩ :=
  ⟨rfl, rfl, h.linked, .code ⟨Or.inl he, fun y _ => h.names y⟩⟩

/-- The same values are bound to a name on both sides. -/
theorem Pairing.Beside.bind {π' : Pairing} (h : π.Beside env env') (hgrows : π.Grows π')
    (hlinked : π'.Linked) {v v' : Value} (hv : v.Twin π' v') :
    π'.Beside (.bind env x v) (.bind env' x v') :=
  ⟨hlinked, hgrows.made h.made, fun y => .bind hv fun _ => (h.names y).mono hgrows⟩

/-! ## Functions -/

/-- A function evaluates to itself, also under annotations. -/
theorem Evaluates.exists_of_isFunction {pl : Place} {σ : Store} {n : Nat} {o : Outcome}
    (hf : Session.isFunction e = true) (h : Evaluates pl σ env e n o) :
    ∃ v σ', o = .value v σ' ∧ v ≠ .absent := by
  induction h with
  | fn => exact ⟨_, _, rfl, by simp⟩
  | annot _ ih => exact ih hf
  | _ => simp [Session.isFunction] at hf

/-- The definition of a function leaves the function, with its knot resolved. -/
theorem evaluates_letIn_self_iff {σ : Store} {p q : Pos} {o : Outcome}
    (hf : Session.isFunction e = true) :
    (∃ n, Evaluates .whole σ env (.letIn p x e (.var q x)) n o) ↔
      ∃ n v σ', Evaluates .whole (σ.addKnot x) (.bindKnot env x σ.knots.size) e n (.value v σ') ∧
        o = .value v (σ'.resolve σ.knots.size v) := by
  have hlookup (σ' : Store) (v : Value) : (Env.bind env x v).lookup σ' x = .found v := by
    simp [Env.lookup, Env.find?]
  constructor
  · rintro ⟨n, h⟩
    cases h with
    | @letIn _ _ σ₁ _ _ _ _ _ n₁ n₂ v _ hb he =>
        obtain ⟨_, _, ⟨⟩, hv⟩ := hb.exists_of_isFunction hf
        refine ⟨n₁, v, σ₁, hb, ?_⟩
        cases he with
        | var h _ =>
            rw [hlookup] at h
            cases h
            rfl
        | var_absent h =>
            rw [hlookup] at h
            cases h
            exact absurd rfl hv
        | var_unbound h =>
            rw [hlookup] at h
            cases h
    | letIn_bound hb =>
        obtain ⟨_, _, ⟨⟩, -⟩ := hb.exists_of_isFunction hf
  · rintro ⟨n, v, σ', hb, rfl⟩
    obtain ⟨_, _, ⟨⟩, hv⟩ := hb.exists_of_isFunction hf
    exact ⟨_, .letIn hb (.var (hlookup _ v) hv)⟩

/-- Under the knots for its name a function is evaluated on both sides alike. -/
theorem Pairing.Beside.twin_addKnot (h : π.Beside env env') (he : e.isSource = true) (x : String) :
    Machine.State.Twin (π.addKnot x)
      ⟨π.left.addKnot x, .bindKnot env x π.left.knots.size, e⟩
      ⟨π.right.addKnot x, .bindKnot env' x π.right.knots.size, e⟩ := by
  refine ⟨rfl, rfl, h.linked.addKnot x, .code ⟨Or.inl he, fun y _ => ?_⟩⟩
  exact .bindKnot (Or.inr ⟨rfl, rfl⟩) fun _ => (h.names y).mono (π.grows_addKnot x)

theorem Pairing.Beside.defined_of_value (h : π.Beside env env') {v : Value} {σ : Store} {o' : Outcome}
    (ho : Outcome.Twin (π.addKnot x) (.value v σ) o') :
    Defined env env' x π.right.knots.size (.value v (σ.resolve π.left.knots.size v)) o' := by
  cases ho with
  | @value π' _ v' hgrows hlinked hv =>
      have hk : π'.knots π.left.knots.size π.right.knots.size := hgrows.knots _ _ (Or.inr ⟨rfl, rfl⟩)
      have hgrows' := π'.grows_resolve π.left.knots.size π.right.knots.size v v'
      exact .value (π := π'.resolve _ _ v v') rfl
        (h.bind (((π.grows_addKnot x).trans hgrows).trans hgrows') (hlinked.resolve hk hv)
          (hv.mono hgrows'))

/-! ## Other definitions -/

/-- What does not ask for its own name is evaluated on both sides alike, though only the second one
makes a knot. -/
theorem Pairing.Beside.twin_addRight (h : π.Beside env env') (he : e.isSource = true)
    (hx : x ∉ e.free) :
    Machine.State.Twin (π.addRight x) ⟨π.left, env, e⟩
      ⟨π.right.addKnot x, .bindKnot env' x π.right.knots.size, e⟩ := by
  refine ⟨rfl, rfl, h.linked.addRight h.made x, .code ⟨Or.inl he, fun y hy => ?_⟩⟩
  have hne : y ≠ x := fun heq => hx (heq ▸ hy)
  exact ((h.names y).mono (π.grows_addRight x)).of_find? rfl (Env.find?_bindKnot_of_ne env' _ hne)

theorem Pairing.Beside.defined_of_twin (h : π.Beside env env') {o o' : Outcome}
    (ho : Outcome.Twin (π.addRight x) o o') : Defined env env' x π.right.knots.size o o' := by
  cases ho with
  | failure f => exact .failure f
  | @value π' v v' hgrows hlinked hv =>
      have hgrows' := π'.grows_resolveRight π.right.knots.size v'
      -- the knot of the second side was made before any that has been paired since
      have hfree : ∀ k, ¬ π'.knots k π.right.knots.size := by
        intro k hk
        have hsize : (π.addRight x).right.knots.size = π.right.knots.size + 1 :=
          π.right.size_addKnot x
        rcases hgrows.added _ _ hk with hk | hk
        · have hlt := h.made _ _ hk
          omega
        · omega
      exact .value (π := π'.resolveRight _ v') rfl
        (h.bind (((π.grows_addRight x).trans hgrows).trans hgrows') (hlinked.resolveRight hfree v')
          (hv.mono hgrows'))

/-! ## Both kinds -/

/-- What a session evaluates for a definition. -/
abbrev Session.defining (x : String) (e : Expr) : Expr := Session.subject ⟨[], some x, e⟩

theorem Session.defining_eq_letIn (hf : Session.isFunction e = true) :
    Session.defining x e = .letIn .unknown x e (.var .unknown x) := by
  simp [Session.defining, Session.subject, hf]

theorem Session.defining_eq_self (hf : ¬ Session.isFunction e = true) : Session.defining x e = e := by
  simp [Session.defining, Session.subject, hf]

variable {n : Nat} {o o' : Outcome} (h : π.Beside env env') (he : e.isSource = true)
  (hdef : Session.isFunction e = true ∨ x ∉ e.free)
include h he hdef

/-- A definition that stops in a session stops in a `let`, and in the same way. -/
theorem Pairing.Beside.exists_bound (hleft : Evaluates .whole π.left env (Session.defining x e) n o) :
    ∃ n' o', Evaluates .whole (π.right.addKnot x) (.bindKnot env' x π.right.knots.size) e n' o' ∧
      Defined env env' x π.right.knots.size o o' := by
  by_cases hf : Session.isFunction e = true
  · rw [Session.defining_eq_letIn hf] at hleft
    obtain ⟨m, v, σ, hbound, rfl⟩ := (evaluates_letIn_self_iff hf).mp ⟨n, hleft⟩
    obtain ⟨n', o', hright, htwin⟩ := (h.twin_addKnot he x).exists_evaluates hbound
    exact ⟨n', o', hright, h.defined_of_value htwin⟩
  · rw [Session.defining_eq_self hf] at hleft
    obtain ⟨n', o', hright, htwin⟩ :=
      (h.twin_addRight he (hdef.resolve_left hf)).exists_evaluates hleft
    exact ⟨n', o', hright, h.defined_of_twin htwin⟩

/-- A definition that stops in a `let` stops in a session, and in the same way. -/
theorem Pairing.Beside.exists_defining
    (hright : Evaluates .whole (π.right.addKnot x) (.bindKnot env' x π.right.knots.size) e n o') :
    ∃ n' o, Evaluates .whole π.left env (Session.defining x e) n' o ∧
      Defined env env' x π.right.knots.size o o' := by
  by_cases hf : Session.isFunction e = true
  · obtain ⟨m, o, hbound, htwin⟩ := (h.twin_addKnot he x).exists_evaluates_left hright
    obtain ⟨v, σ, rfl, -⟩ := hbound.exists_of_isFunction hf
    obtain ⟨n', hleft⟩ := (evaluates_letIn_self_iff (p := .unknown) (q := .unknown) hf).mpr
      ⟨m, v, σ, hbound, rfl⟩
    rw [← Session.defining_eq_letIn hf] at hleft
    exact ⟨n', _, hleft, h.defined_of_value htwin⟩
  · obtain ⟨n', o, hleft, htwin⟩ :=
      (h.twin_addRight he (hdef.resolve_left hf)).exists_evaluates_left hright
    rw [← Session.defining_eq_self (x := x) hf] at hleft
    exact ⟨n', o, hleft, h.defined_of_twin htwin⟩

end FunLang
