import FunLang.Machine.Failure
import FunLang.Proofs.Knots.Reachable
import FunLang.Proofs.Knots.References
import FunLang.Proofs.Syntax.Free

set_option autoImplicit false

/-!
# Values of two evaluations

Two evaluations of one expression under different environments go side by side as long as the
environments agree on the names that are free in it. What comes up in the one is then the twin of what
comes up in the other: functions have the same parameter and body, but may have been made under
environments that agree only on the names that are free in the body.

A name is bound alike in two environments if it is bound in neither, if its values are twins, or if
it refers to knots that correspond to each other. The last case is what makes twins of functions
that refer to themselves: what is behind a knot is not looked at again.
-/

namespace FunLang

/-! ## Values that are equal as far as they are shown -/

mutual

/-- Equality of values in which functions count as equal if they have the same parameter and the same
body. -/
def Value.Same : Value → Value → Prop
  | .absent, .absent => True
  | .int a, .int b => a = b
  | .bool a, .bool b => a = b
  | .closure _ x body _, .closure _ y body' _ => x = y ∧ body = body'
  | .data c vs, .data d ws => c = d ∧ Value.SameAll vs ws
  | _, _ => False

def Value.SameAll : List Value → List Value → Prop
  | [], [] => True
  | v :: vs, w :: ws => v.Same w ∧ Value.SameAll vs ws
  | _, _ => False

end

/-! ## Twins -/

/-- Two evaluations side by side: their stores, and which knots of the one correspond to which of the
other. -/
structure Pairing where
  left : Store
  right : Store
  knots : Nat → Nat → Prop
  /-- Whether names are admitted that are bound in neither evaluation. -/
  loose : Prop

/-- All the knots that are referred to are paired with themselves. -/
structure Pairing.Reflexive (π : Pairing) (refs : List KnotRef) : Prop where
  loose : π.loose
  knots : ∀ r ∈ refs, π.knots r.knot r.knot

/-- An expression that may be evaluated on both sides: it is source text, or else all the knots that
it refers to are paired with themselves. -/
def Pairing.Admits (π : Pairing) (e : Expr) : Prop := e.isSource = true ∨ π.Reflexive e.refs

mutual

/-- Values that come up in the same place of two evaluations. -/
inductive Value.Twin (π : Pairing) : Value → Value → Prop where
  | absent : Value.Twin π .absent .absent
  | int (n : Int64) : Value.Twin π (.int n) (.int n)
  | bool (b : Bool) : Value.Twin π (.bool b) (.bool b)
  | closure {label label' : Nat} {x : String} {body : Expr} {env env' : Env} (hbody : π.Admits body)
      (henv : ∀ y ∈ body.free, y ≠ x → Env.TwinAt π env env' y) :
      Value.Twin π (.closure label x body env) (.closure label' x body env')
  | data (c : Constructor) {vs vs' : List Value} (h : Value.TwinAll π vs vs') :
      Value.Twin π (.data c vs) (.data c vs')

inductive Value.TwinAll (π : Pairing) : List Value → List Value → Prop where
  | nil : Value.TwinAll π [] []
  | cons {v v' : Value} {vs vs' : List Value} (h : Value.Twin π v v') (hs : Value.TwinAll π vs vs') :
      Value.TwinAll π (v :: vs) (v' :: vs')

/-- A name that is bound alike in two environments. -/
inductive Env.TwinAt (π : Pairing) : Env → Env → String → Prop where
  | unbound {env env' : Env} {y : String} (hπ : π.loose) (h : env.find? y = none)
      (h' : env'.find? y = none) : Env.TwinAt π env env' y
  | found {env env' : Env} {y : String} {v v' : Value} (h : env.lookup π.left y = .found v)
      (h' : env'.lookup π.right y = .found v') (hv : Value.Twin π v v') : Env.TwinAt π env env' y
  | knot {env env' : Env} {y : String} {k k' : Nat} (h : env.find? y = some (.knot k))
      (h' : env'.find? y = some (.knot k')) (hk : π.knots k k') : Env.TwinAt π env env' y

end

variable {π π' : Pairing}

/-! ## What twins have in common -/

mutual

theorem Value.Twin.same : ∀ {v v' : Value}, v.Twin π v' → v.Same v'
  | _, _, .absent => trivial
  | _, _, .int _ => rfl
  | _, _, .bool _ => rfl
  | _, _, .closure _ _ => ⟨rfl, rfl⟩
  | _, _, .data _ h => ⟨rfl, Value.TwinAll.sameAll h⟩

theorem Value.TwinAll.sameAll : ∀ {vs vs' : List Value}, Value.TwinAll π vs vs' →
    Value.SameAll vs vs'
  | _, _, .nil => trivial
  | _, _, .cons h hs => ⟨Value.Twin.same h, Value.TwinAll.sameAll hs⟩

end

theorem Value.Twin.kind_eq {v v' : Value} (h : v.Twin π v') : v'.kind = v.kind := by
  cases h <;> rfl

theorem Value.Twin.isCompound_eq {v v' : Value} (h : v.Twin π v') : v'.isCompound = v.isCompound := by
  cases h with
  | data c hs => cases hs <;> rfl
  | _ => rfl

mutual

theorem Value.Twin.render_eq : ∀ {v v' : Value}, v.Twin π v' → v'.render = v.render
  | _, _, .absent => rfl
  | _, _, .int _ => rfl
  | _, _, .bool _ => rfl
  | _, _, .closure _ _ => rfl
  | _, _, .data c h => by rw [Value.render, Value.render, Value.TwinAll.renderFields_eq h]

theorem Value.TwinAll.renderFields_eq : ∀ {vs vs' : List Value}, Value.TwinAll π vs vs' →
    Value.renderFields vs' = Value.renderFields vs
  | _, _, .nil => rfl
  | _, _, .cons h hs => by
      rw [Value.renderFields_cons, Value.renderFields_cons, h.isCompound_eq, Value.Twin.render_eq h,
        Value.TwinAll.renderFields_eq hs]

end

theorem Value.TwinAll.concat {vs vs' : List Value} {v v' : Value} (hs : Value.TwinAll π vs vs')
    (h : v.Twin π v') : Value.TwinAll π (vs ++ [v]) (vs' ++ [v']) := by
  induction vs generalizing vs' with
  | nil =>
      cases hs
      exact .cons h .nil
  | cons w vs ih =>
      cases hs with
      | cons hw hs => exact .cons hw (ih hs)

/-! ## Later in the evaluations -/

/-- What a pairing has become after some steps of both evaluations: resolved knots keep their values,
and the knots that have been paired since then are new ones. -/
structure Pairing.Grows (π π' : Pairing) : Prop where
  knots : ∀ k l, π.knots k l → π'.knots k l
  left : ∀ k v, π.left.knotValue? k = some v → π'.left.knotValue? k = some v
  right : ∀ k v, π.right.knotValue? k = some v → π'.right.knotValue? k = some v
  loose : π'.loose ↔ π.loose
  size_left : π.left.knots.size ≤ π'.left.knots.size
  size_right : π.right.knots.size ≤ π'.right.knots.size
  added : ∀ k l, π'.knots k l → π.knots k l ∨
    (π.left.knots.size ≤ k ∧ k < π'.left.knots.size) ∧ π.right.knots.size ≤ l ∧ l < π'.right.knots.size

theorem Pairing.Grows.refl (π : Pairing) : π.Grows π :=
  ⟨fun _ _ h => h, fun _ _ h => h, fun _ _ h => h, Iff.rfl, le_rfl, le_rfl, fun _ _ h => Or.inl h⟩

theorem Pairing.Grows.trans {π'' : Pairing} (h : π.Grows π') (h' : π'.Grows π'') : π.Grows π'' := by
  refine ⟨fun k l hk => h'.knots k l (h.knots k l hk), fun k v hk => h'.left k v (h.left k v hk),
    fun k v hk => h'.right k v (h.right k v hk), h'.loose.trans h.loose,
    h.size_left.trans h'.size_left, h.size_right.trans h'.size_right, fun k l hk => ?_⟩
  have hl := h.size_left
  have hr := h.size_right
  have hl' := h'.size_left
  have hr' := h'.size_right
  rcases h'.added k l hk with hk | hk
  · rcases h.added k l hk with hk | hk
    · exact Or.inl hk
    · exact Or.inr (by omega)
  · exact Or.inr (by omega)

/-- A pairing that knows more: resolved knots keep their values, and paired knots stay paired. -/
structure Pairing.Extends (π π' : Pairing) : Prop where
  knots : ∀ k l, π.knots k l → π'.knots k l
  left : ∀ k v, π.left.knotValue? k = some v → π'.left.knotValue? k = some v
  right : ∀ k v, π.right.knotValue? k = some v → π'.right.knotValue? k = some v
  loose : π.loose → π'.loose

theorem Pairing.Grows.extends (h : π.Grows π') : π.Extends π' :=
  ⟨h.knots, h.left, h.right, h.loose.mpr⟩

theorem Pairing.Extends.admits (h : π.Extends π') {e : Expr} (he : π.Admits e) : π'.Admits e :=
  he.imp_right fun hπ => ⟨h.loose hπ.loose, fun r hr => h.knots _ _ (hπ.knots r hr)⟩

/-- A name that has a value keeps it. -/
theorem Env.lookup_of_keeps {σ σ' : Store}
    (h : ∀ k v, σ.knotValue? k = some v → σ'.knotValue? k = some v) {env : Env} {y : String} {v : Value}
    (hy : env.lookup σ y = .found v) : env.lookup σ' y = .found v := by
  unfold Env.lookup at hy
  cases hf : env.find? y with
  | none => simp [hf] at hy
  | some b =>
      cases b with
      | value w =>
          simp only [hf, Lookup.found.injEq] at hy
          exact hy ▸ Env.lookup_of_value σ' hf
      | knot k =>
          cases hk : σ.knotValue? k with
          | none => simp [hf, hk] at hy
          | some w =>
              simp only [hf, hk, Lookup.found.injEq] at hy
              exact hy ▸ Env.lookup_of_knot hf (h k w hk)

mutual

theorem Value.Twin.extend (h : π.Extends π') : ∀ {v v' : Value}, v.Twin π v' → v.Twin π' v'
  | _, _, .absent => .absent
  | _, _, .int n => .int n
  | _, _, .bool b => .bool b
  | _, _, .closure hbody henv =>
      .closure (h.admits hbody) fun y hy hne => Env.TwinAt.extend h (henv y hy hne)
  | _, _, .data c hs => .data c (Value.TwinAll.extend h hs)

theorem Value.TwinAll.extend (h : π.Extends π') : ∀ {vs vs' : List Value}, Value.TwinAll π vs vs' →
    Value.TwinAll π' vs vs'
  | _, _, .nil => .nil
  | _, _, .cons hv hs => .cons (Value.Twin.extend h hv) (Value.TwinAll.extend h hs)

theorem Env.TwinAt.extend (h : π.Extends π') : ∀ {env env' : Env} {y : String}, env.TwinAt π env' y →
    env.TwinAt π' env' y
  | _, _, _, .unbound hπ hl hr => .unbound (h.loose hπ) hl hr
  | _, _, _, .found hl hr hv =>
      .found (Env.lookup_of_keeps h.left hl) (Env.lookup_of_keeps h.right hr) (Value.Twin.extend h hv)
  | _, _, _, .knot hl hr hk => .knot hl hr (h.knots _ _ hk)

end

theorem Value.Twin.mono (h : π.Grows π') {v v' : Value} (hv : v.Twin π v') : v.Twin π' v' :=
  hv.extend h.extends

theorem Env.TwinAt.mono (h : π.Grows π') {env env' : Env} {y : String} (hy : env.TwinAt π env' y) :
    env.TwinAt π' env' y :=
  hy.extend h.extends

/-! ## What is its own twin -/

theorem Pairing.Reflexive.mono {refs refs' : List KnotRef} (hπ : π.Reflexive refs) (h : refs' ⊆ refs) :
    π.Reflexive refs' :=
  ⟨hπ.loose, fun r hr => hπ.knots r (h hr)⟩

mutual

/-- The recursion goes down into values and environments: what a name is bound to is smaller than the
environment, and what is behind a knot is not looked at. -/
theorem Value.Twin.refl : ∀ (v : Value), π.Reflexive v.refs → v.Twin π v
  | .absent, _ => .absent
  | .int n, _ => .int n
  | .bool b, _ => .bool b
  | .closure _ _ body env, hπ => by
      rw [Value.refs] at hπ
      exact .closure (Or.inr (hπ.mono (List.subset_append_left _ _))) fun y _ _ =>
        Env.TwinAt.refl env (hπ.mono (List.subset_append_right _ _)) y
  | .data c vs, hπ => .data c (Value.TwinAll.refl vs (by rwa [Value.refs] at hπ))
termination_by v => sizeOf v

theorem Value.TwinAll.refl : ∀ (vs : List Value), π.Reflexive (Value.refsAll vs) → Value.TwinAll π vs vs
  | [], _ => .nil
  | v :: vs, hπ => by
      rw [Value.refsAll] at hπ
      exact .cons (Value.Twin.refl v (hπ.mono (List.subset_append_left _ _)))
        (Value.TwinAll.refl vs (hπ.mono (List.subset_append_right _ _)))
termination_by vs => sizeOf vs

theorem Env.TwinAt.refl (env : Env) (hπ : π.Reflexive env.refs) (y : String) : env.TwinAt π env y := by
  cases hy : env.find? y with
  | none => exact .unbound hπ.loose hy hy
  | some b =>
      cases b with
      | value v =>
          have : sizeOf v < sizeOf env := Env.sizeOf_lt_of_find? hy
          exact .found (Env.lookup_of_value _ hy) (Env.lookup_of_value _ hy)
            (Value.Twin.refl v (hπ.mono (Env.refs_of_find?_value hy)))
      | knot k => exact .knot hy hy (hπ.knots _ (Env.mem_refs_of_find?_knot hy))
termination_by sizeOf env

end

end FunLang
