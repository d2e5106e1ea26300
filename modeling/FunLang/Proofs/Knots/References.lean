import FunLang.Machine.Step
import FunLang.Proofs.Machine.Matching
import FunLang.Proofs.Syntax.Source

set_option autoImplicit false

/-!
# References to knots

The knots that an expression, a value or an environment refers to (`Expr.refs`, `Value.refs`,
`Env.refs`), at all depths: by a name that is bound to the knot, or because a `let` under way is to
resolve it. What is behind a knot is not looked at, and neither is a form that the language does not
know, since an evaluation never looks inside it.

What an evaluation makes out of its parts refers to no other knots than these parts do.
-/

namespace FunLang

/-- A reference to a knot: by a name, or by a `let` that is still to resolve it. -/
inductive KnotRef where
  | name (k : Nat)
  | tie (k : Nat)

/-- The knot that is referred to. -/
def KnotRef.knot : KnotRef → Nat
  | name k | tie k => k

mutual

/-- The references in an expression. -/
def Expr.refs : Expr → List KnotRef
  | .binary _ _ l r => l.refs ++ r.refs
  | .cond _ c t e => c.refs ++ t.refs ++ e.refs
  | .fn _ _ body => body.refs
  | .app _ f args => f.refs ++ Expr.refsAll args
  | .letIn _ _ bound body => bound.refs ++ body.refs
  | .annot _ e _ => e.refs
  | .cases _ s alts => s.refs ++ Alt.refs alts
  | .value v => v.refs
  | .within env e => env.refs ++ e.refs
  | .tying _ k bound body => .tie k :: (bound.refs ++ body.refs)
  | .missing | .var .. | .int .. | .bool .. | .ctor .. | .custom .. | .wrapped .. => []

def Expr.refsAll : List Expr → List KnotRef
  | [] => []
  | e :: es => e.refs ++ Expr.refsAll es

def Alt.refs : List Alt → List KnotRef
  | [] => []
  | .mk _ _ e :: alts => e.refs ++ Alt.refs alts

/-- The references in a value. A function refers to the knots of its environment, whether its body asks
for them or not. -/
def Value.refs : Value → List KnotRef
  | .closure _ _ body env => body.refs ++ env.refs
  | .data _ fields => Value.refsAll fields
  | .absent | .int _ | .bool _ => []

def Value.refsAll : List Value → List KnotRef
  | [] => []
  | v :: vs => v.refs ++ Value.refsAll vs

/-- The references in an environment, those by hidden names included. -/
def Env.refs : Env → List KnotRef
  | .empty => []
  | .bind env _ v => env.refs ++ v.refs
  | .bindKnot env _ k => .name k :: env.refs

end

/-! ## Source text -/

mutual

/-- An expression of source text refers to no knots. -/
theorem Expr.refs_of_isSource : ∀ {e : Expr}, e.isSource = true → e.refs = []
  | .missing, _ | .var .., _ | .int .., _ | .bool .., _ | .ctor .., _ | .custom .., _
  | .wrapped .., _ => by simp [Expr.refs]
  | .binary _ _ l r, h => by
      simp only [Expr.isSource, Bool.and_eq_true] at h
      simp [Expr.refs, Expr.refs_of_isSource h.1, Expr.refs_of_isSource h.2]
  | .cond _ c t e, h => by
      simp only [Expr.isSource, Bool.and_eq_true] at h
      simp [Expr.refs, Expr.refs_of_isSource h.1.1, Expr.refs_of_isSource h.1.2,
        Expr.refs_of_isSource h.2]
  | .fn _ _ body, h => by
      simp only [Expr.isSource] at h
      simp [Expr.refs, Expr.refs_of_isSource h]
  | .app _ f args, h => by
      simp only [Expr.isSource, Bool.and_eq_true] at h
      simp [Expr.refs, Expr.refs_of_isSource h.1, Expr.refsAll_of_areSource h.2]
  | .letIn _ _ bound body, h => by
      simp only [Expr.isSource, Bool.and_eq_true] at h
      simp [Expr.refs, Expr.refs_of_isSource h.1, Expr.refs_of_isSource h.2]
  | .annot _ e _, h => by
      simp only [Expr.isSource] at h
      simp [Expr.refs, Expr.refs_of_isSource h]
  | .cases _ s alts, h => by
      simp only [Expr.isSource, Bool.and_eq_true] at h
      simp [Expr.refs, Expr.refs_of_isSource h.1, Alt.refs_of_areSource h.2]

theorem Expr.refsAll_of_areSource : ∀ {es : List Expr}, Expr.areSource es = true → Expr.refsAll es = []
  | [], _ => rfl
  | e :: es, h => by
      simp only [Expr.areSource, Bool.and_eq_true] at h
      simp [Expr.refsAll, Expr.refs_of_isSource h.1, Expr.refsAll_of_areSource h.2]

theorem Alt.refs_of_areSource : ∀ {alts : List Alt}, Alt.areSource alts = true → Alt.refs alts = []
  | [], _ => rfl
  | .mk _ _ e :: alts, h => by
      simp only [Alt.areSource, Bool.and_eq_true] at h
      simp [Alt.refs, Expr.refs_of_isSource h.1, Alt.refs_of_areSource h.2]

end

/-! ## Parts -/

theorem Expr.refs_subset_refsAll {e : Expr} {es : List Expr} (h : e ∈ es) :
    e.refs ⊆ Expr.refsAll es := by
  induction es with
  | nil => simp at h
  | cons a es ih =>
      rw [Expr.refsAll]
      rcases List.mem_cons.mp h with rfl | h
      · exact List.subset_append_left _ _
      · exact List.subset_append_of_subset_right _ (ih h)

theorem Alt.refs_subset {p : Pos} {pat : Pattern} {e : Expr} {alts : List Alt}
    (h : Alt.mk p pat e ∈ alts) : e.refs ⊆ Alt.refs alts := by
  induction alts with
  | nil => simp at h
  | cons a alts ih =>
      obtain ⟨p', pat', e'⟩ := a
      rw [Alt.refs]
      rcases List.mem_cons.mp h with heq | h
      · cases heq
        exact List.subset_append_left _ _
      · exact List.subset_append_of_subset_right _ (ih h)

theorem Value.refs_subset_refsAll {v : Value} {vs : List Value} (h : v ∈ vs) :
    v.refs ⊆ Value.refsAll vs := by
  induction vs with
  | nil => simp at h
  | cons w vs ih =>
      rw [Value.refsAll]
      rcases List.mem_cons.mp h with rfl | h
      · exact List.subset_append_left _ _
      · exact List.subset_append_of_subset_right _ (ih h)

theorem Value.refsAll_append (vs ws : List Value) :
    Value.refsAll (vs ++ ws) = Value.refsAll vs ++ Value.refsAll ws := by
  induction vs with
  | nil => rfl
  | cons v vs ih => rw [List.cons_append, Value.refsAll, ih, Value.refsAll, List.append_assoc]

/-! ## Environments -/

theorem Env.refs_of_find?_value {y : String} {v : Value} : ∀ {env : Env},
    env.find? y = some (.value v) → v.refs ⊆ env.refs
  | .empty, h => by simp [Env.find?] at h
  | .bind env x w, h => by
      rw [Env.find?] at h
      rw [Env.refs]
      split at h
      · cases h
        exact List.subset_append_right _ _
      · exact List.subset_append_of_subset_left _ (Env.refs_of_find?_value h)
  | .bindKnot env x k, h => by
      rw [Env.find?] at h
      rw [Env.refs]
      split at h
      · cases h
      · exact List.subset_cons_of_subset _ (Env.refs_of_find?_value h)

theorem Env.mem_refs_of_find?_knot {y : String} {k : Nat} : ∀ {env : Env},
    env.find? y = some (.knot k) → .name k ∈ env.refs
  | .empty, h => by simp [Env.find?] at h
  | .bind env x w, h => by
      rw [Env.find?] at h
      rw [Env.refs]
      split at h
      · cases h
      · exact List.mem_append_left _ (Env.mem_refs_of_find?_knot h)
  | .bindKnot env x l, h => by
      rw [Env.find?] at h
      rw [Env.refs]
      split at h
      · cases h
        exact List.mem_cons_self
      · exact List.mem_cons_of_mem _ (Env.mem_refs_of_find?_knot h)

/-- The value of a name is bound to it, or is behind a knot that the environment refers to. -/
theorem Env.refs_of_lookup {σ : Store} {env : Env} {x : String} {v : Value}
    (h : env.lookup σ x = .found v) :
    v.refs ⊆ env.refs ∨ ∃ k, .name k ∈ env.refs ∧ σ.knotValue? k = some v := by
  unfold Env.lookup at h
  cases hf : env.find? x with
  | none => simp [hf] at h
  | some b =>
      cases b with
      | value w =>
          simp only [hf, Lookup.found.injEq] at h
          subst h
          exact Or.inl (Env.refs_of_find?_value hf)
      | knot k =>
          cases hk : σ.knotValue? k with
          | none => simp [hf, hk] at h
          | some w =>
              simp only [hf, hk, Lookup.found.injEq] at h
              subst h
              exact Or.inr ⟨k, Env.mem_refs_of_find?_knot hf, hk⟩

theorem Env.refs_bindAll {bs : List (String × Value)} {env : Env} {r : KnotRef}
    (h : r ∈ (env.bindAll bs).refs) : r ∈ env.refs ∨ ∃ b ∈ bs, r ∈ b.2.refs := by
  induction bs generalizing env with
  | nil => exact Or.inl h
  | cons b bs ih =>
      rcases ih h with h | ⟨c, hc, h⟩
      · rw [Env.refs] at h
        rcases List.mem_append.mp h with h | h
        · exact Or.inl h
        · exact Or.inr ⟨b, by simp, h⟩
      · exact Or.inr ⟨c, by simp [hc], h⟩

/-! ## Matching -/

/-- The alternative that is taken is a part of the expression, and it binds parts of the value. -/
theorem Alt.refs_of_select? {alts : List Alt} {v : Value} {e : Expr} {bs : List (String × Value)}
    (h : Alt.select? alts v = some (e, bs)) :
    e.refs ⊆ Alt.refs alts ∧ ∀ b ∈ bs, b.2.refs ⊆ v.refs := by
  obtain ⟨p, pat, hmem, hpat⟩ := Alt.exists_of_select? h
  refine ⟨Alt.refs_subset hmem, ?_⟩
  refine Pattern.bindings?_forall (P := fun w => w.refs ⊆ v.refs) ?_ hpat (List.Subset.refl _)
  intro c fields hdata w hw
  rw [Value.refs] at hdata
  exact List.Subset.trans (Value.refs_subset_refsAll hw) hdata

/-- The result of an operator is a number or a truth value. -/
theorem BinOp.refs_of_eval? {op : BinOp} {a b v : Value} (h : op.eval? a b = some v) : v.refs = [] := by
  unfold BinOp.eval? at h
  split at h <;> simp only [Option.some.injEq, reduceCtorEq] at h <;> subst h <;> rfl

end FunLang
