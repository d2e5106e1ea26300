import FunLang.Proofs.Twins.Runs

set_option autoImplicit false

/-!
# Only free names matter

The run of an expression depends on its environment only through the names that are free in it:
under two environments that agree on them it takes the same number of steps and ends alike. The two
runs go side by side from the start, where everything in the store is paired with itself. Functions that
they return may still hold different environments, so values are compared up to these.
-/

namespace FunLang

/-- A name has the same meaning in two environments: it is bound in neither, refers to the same knot in
both, or has the same value. -/
def Env.AgreesAt (σ : Store) (env env' : Env) (x : String) : Prop :=
  env.find? x = env'.find? x ∨ ∃ v, env.lookup σ x = .found v ∧ env'.lookup σ x = .found v

/-- A store paired with itself. -/
def Pairing.itself (σ : Store) : Pairing := ⟨σ, σ, Eq, True⟩

theorem Pairing.reflexive_itself (σ : Store) {refs : List KnotRef} :
    (Pairing.itself σ).Reflexive refs :=
  ⟨trivial, fun _ _ => rfl⟩

theorem Pairing.linked_itself (σ : Store) : (Pairing.itself σ).Linked := by
  refine ⟨fun _ _ _ h h' => h'.symm.trans h, fun _ _ _ h h' => h'.trans h.symm, ?_, ?_⟩
  · rintro k _ rfl
    rcases Nat.lt_or_ge k σ.knots.size with hlt | hge
    · exact Or.inl ⟨hlt, hlt⟩
    · exact Or.inr ⟨k - σ.knots.size, (Nat.add_sub_of_le hge).symm, (Nat.add_sub_of_le hge).symm⟩
  · rintro k _ rfl
    show Option.Rel _ (σ.knotValue? k) (σ.knotValue? k)
    cases σ.knotValue? k with
    | none => exact .none
    | some v => exact .some (.refl v (Pairing.reflexive_itself σ))

theorem Env.AgreesAt.twinAt {σ : Store} {env env' : Env} {x : String} (h : env.AgreesAt σ env' x) :
    env.TwinAt (.itself σ) env' x := by
  rcases h with h | ⟨v, hv, hv'⟩
  · exact (Env.TwinAt.refl env (Pairing.reflexive_itself σ) x).of_find? rfl h.symm
  · exact .found hv hv' (.refl v (Pairing.reflexive_itself σ))

namespace Machine

/-- Runs end alike after the same number of steps: with the same error, or with values that are equal
as far as they are shown. -/
def Result.Alike (r r' : Result) : Prop :=
  r.steps = r'.steps ∧
    match r.outcome, r'.outcome with
    | .ok v, .ok v' => v.Same v'
    | .error e, .error e' => e = e'
    | _, _ => False

theorem Result.Twin.alike {π : Pairing} {r r' : Result} (h : r.Twin π r') : r.Alike r' := by
  cases h with
  | error _ => exact ⟨rfl, rfl⟩
  | value _ _ hv => exact ⟨rfl, hv.same⟩

/-- Runs from states that are twins end alike or not at all. -/
theorem State.Twin.run_alike {π : Pairing} {s s' : State} (h : s.Twin π s') (maxSteps : Int)
    (signal : Nat → Option Interrupt) :
    Option.Rel Result.Alike (run maxSteps signal s) (run maxSteps signal s') := by
  cases hr : run maxSteps signal s with
  | some r =>
      obtain ⟨r', hstops, htwin⟩ := (run_eq_some_iff.mp hr).twin h
      rw [run_eq_some_iff.mpr hstops]
      exact .some htwin.alike
  | none =>
      cases hr' : run maxSteps signal s' with
      | none => exact .none
      | some r' =>
          obtain ⟨r, hstops⟩ := (run_eq_some_iff.mp hr').of_twin h
          rw [run_eq_some_iff.mpr hstops] at hr
          cases hr

/-- **Only free names matter.** Under environments that agree on the names that are free in an
expression its runs take the same number of steps and end alike, or do not end at all, whatever the
budget is and whatever interrupts them. -/
theorem run_alike_of_agreesAt {σ : Store} {env env' : Env} {e : Expr}
    (h : ∀ x ∈ e.free, env.AgreesAt σ env' x) (maxSteps : Int) (signal : Nat → Option Interrupt) :
    Option.Rel Result.Alike (run maxSteps signal ⟨σ, env, e⟩) (run maxSteps signal ⟨σ, env', e⟩) := by
  have hcode : (Pairing.itself σ).Code env env' e :=
    ⟨Or.inr (Pairing.reflexive_itself σ), fun x hx => (h x hx).twinAt⟩
  have htwin : State.Twin (.itself σ) ⟨σ, env, e⟩ ⟨σ, env', e⟩ :=
    ⟨rfl, rfl, Pairing.linked_itself σ, .code hcode⟩
  exact htwin.run_alike maxSteps signal

/-- `let f = fun n -> f (n + y) in f` under environments that bind `y` alike, the one by a knot, and
`f` differently, with a budget of three steps. -/
theorem run_alike_of_agreesAt_let :
    Option.Rel Result.Alike
      (run 3 quiet ⟨⟨#[⟨"y", some (.int 3)⟩], 0⟩, .bind (.bindKnot .empty "y" 0) "f" (.int 1),
        .letIn ⟨1, 1⟩ "f" (.fn ⟨1, 9⟩ "n" (.app ⟨1, 18⟩ (.var ⟨1, 18⟩ "f")
          [.binary ⟨1, 23⟩ .add (.var ⟨1, 21⟩ "n") (.var ⟨1, 25⟩ "y")])) (.var ⟨1, 31⟩ "f")⟩)
      (run 3 quiet ⟨⟨#[⟨"y", some (.int 3)⟩], 0⟩, .bind (.bind .empty "f" (.bool true)) "y" (.int 3),
        .letIn ⟨1, 1⟩ "f" (.fn ⟨1, 9⟩ "n" (.app ⟨1, 18⟩ (.var ⟨1, 18⟩ "f")
          [.binary ⟨1, 23⟩ .add (.var ⟨1, 21⟩ "n") (.var ⟨1, 25⟩ "y")])) (.var ⟨1, 31⟩ "f")⟩) := by
  refine run_alike_of_agreesAt (fun x hx => ?_) 3 quiet
  obtain rfl : x = "y" := by grind [Expr.free, Expr.freeAll]
  exact Or.inr ⟨.int 3, rfl, rfl⟩

end Machine

end FunLang
