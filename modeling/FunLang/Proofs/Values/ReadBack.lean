import FunLang.Proofs.BigStep.Runs
import FunLang.Proofs.Layout.RoundTrip
import FunLang.Proofs.Syntax.Tables
import FunLang.Proofs.Values.Equality
import FunLang.Proofs.Values.Text

set_option autoImplicit false

/-!
# Printed values are read back

A value is shown as the source text that produces it, unless it holds a function. Here that is meant
literally: the text is the layout of an expression (`Value.render_eq_exprAt`), so it can be read, and
what is read evaluates to the value again, whatever the environment (`Value.exists_denotes`).

Two values with the same text are therefore equal. For that they need not belong to the same table:
equality looks at the names of constructors only, and a value can be carried over to a table that knows
all the names (`Value.carried`).
-/

namespace FunLang

/-! ## Values that can be read -/

section Readable

variable (Γ : CtorTable)

mutual

/-- A value without functions whose constructors are those of the table. -/
def Value.isReadable : Value → Bool
  | .int _ | .bool _ => true
  | .data c fields => c.isKnown Γ && Value.areReadable fields
  | .closure .. | .absent => false

def Value.areReadable : List Value → Bool
  | [] => true
  | v :: vs => v.isReadable && Value.areReadable vs

end

end Readable

variable {Γ Δ : CtorTable}

mutual

theorem Value.isWellFormed_surface : ∀ {v : Value}, v.isReadable Γ = true →
    v.surface.isWellFormed Γ = true
  | .int _, _ => rfl
  | .bool _, _ => rfl
  | .data c [], h => by
      simp only [Value.isReadable, Bool.and_eq_true] at h
      rw [Value.surface, Expr.isWellFormed]
      exact h.1
  | .data c (v :: vs), h => by
      simp only [Value.isReadable, Bool.and_eq_true] at h
      have hfields := Value.areWellFormed_surfaceValues h.2
      rw [surfaceValues] at hfields
      rw [Value.surface, Expr.isWellFormed, Expr.isWellFormed, h.1, hfields]
      rfl

theorem Value.areWellFormed_surfaceValues : ∀ {vs : List Value}, Value.areReadable Γ vs = true →
    Expr.areWellFormed Γ (surfaceValues vs) = true
  | [], _ => rfl
  | v :: vs, h => by
      simp only [Value.areReadable, Bool.and_eq_true] at h
      rw [surfaceValues, Expr.areWellFormed, Value.isWellFormed_surface h.1,
        Value.areWellFormed_surfaceValues h.2]
      rfl

end

mutual

theorem Value.isGround_of_isReadable : ∀ {v : Value}, v.isReadable Γ = true → v.isGround = true
  | .int _, _ => rfl
  | .bool _, _ => rfl
  | .data c fields, h => by
      simp only [Value.isReadable, Bool.and_eq_true] at h
      rw [Value.isGround, Value.areGround_of_areReadable h.2]

theorem Value.areGround_of_areReadable : ∀ {vs : List Value}, Value.areReadable Γ vs = true →
    Value.areGround vs = true
  | [], _ => rfl
  | v :: vs, h => by
      simp only [Value.areReadable, Bool.and_eq_true] at h
      rw [Value.areGround, Value.isGround_of_isReadable h.1, Value.areGround_of_areReadable h.2]
      rfl

end

/-! ## Evaluating what has been read -/

/-- Whatever the environment and the knots, the expression comes to the value and makes no knot. -/
def Expr.Denotes (e : Expr) (v : Value) : Prop :=
  ∃ n, ∀ pl σ env, Evaluates pl σ env e n (.value v σ)

/-- Constructed values take their arguments one by one, in order. -/
theorem Evaluates.app_fields {p : Pos} {f : Expr} {as : List Expr} {c : Constructor}
    {fields ws : List Value} {n : Nat} (has : List.Forall₂ Expr.Denotes as ws) (hne : as ≠ [])
    (hf : ∀ σ env, Evaluates .part σ env f n (.value (.data c fields) σ)) :
    (Expr.app p f as).Denotes (.data c (fields ++ ws)) := by
  induction has generalizing f fields n with
  | nil => exact absurd rfl hne
  | @cons a w as ws ha has ih =>
      obtain ⟨m, ha⟩ := ha
      cases has with
      | nil => exact ⟨_, fun pl σ env => .app_data_last (ha .part σ env) (hf σ env)⟩
      | cons hb has =>
          have hnext : ∀ σ env, Evaluates .part σ env (.value (.data c (fields ++ [w]))) 0
              (.value (.data c (fields ++ [w])) σ) := fun _ _ => .value_part
          obtain ⟨k, hrest⟩ := ih (List.cons_ne_nil _ _) hnext
          rw [List.append_assoc] at hrest
          exact ⟨_, fun pl σ env => .app_data (ha .part σ env) (hf σ env) (hrest pl σ env)⟩

mutual

/-- An expression that is the surface of a value up to places comes to that value. -/
theorem Value.exists_denotes : ∀ {v : Value} {e : Expr}, v.isReadable Γ = true →
    e.unplaced = v.surface.unplaced → ∃ w, e.Denotes w ∧ w.equal v = true
  | .int n, e, _, he => by
      obtain ⟨p, rfl⟩ := Expr.exists_of_unplaced_int he
      exact ⟨.int n, ⟨1, fun _ _ _ => .int⟩, by simp [Value.equal]⟩
  | .bool b, e, _, he => by
      obtain ⟨p, rfl⟩ := Expr.exists_of_unplaced_bool he
      exact ⟨.bool b, ⟨1, fun _ _ _ => .bool⟩, by simp [Value.equal]⟩
  | .data c [], e, _, he => by
      obtain ⟨p, d, rfl, hname⟩ := Expr.exists_of_unplaced_ctor he
      have hsame : d.same c = true := by simp [Constructor.same, hname, Constructor.unplaced]
      exact ⟨.data d [], ⟨1, fun _ _ _ => .ctor⟩, by simp [Value.equal, Value.equalAll, hsame]⟩
  | .data c (v :: vs), e, h, he => by
      simp only [Value.isReadable, Bool.and_eq_true] at h
      rw [Value.surface, Expr.unplaced, ← surfaceValues] at he
      obtain ⟨p, f, as, rfl, hf, has⟩ := Expr.exists_of_unplaced_app he
      obtain ⟨q, d, rfl, hname⟩ := Expr.exists_of_unplaced_ctor hf
      have hsame : d.same c = true := by simp [Constructor.same, hname, Constructor.unplaced]
      have hne : as ≠ [] := by
        rintro rfl
        simp [Expr.unplacedAll, surfaceValues] at has
      have hd : ∀ σ env, Evaluates .part σ env (.ctor q d) 1 (.value (.data d []) σ) :=
        fun _ _ => .ctor
      obtain ⟨ws, hws, hequal⟩ := Value.exists_denotesAll h.2 has
      exact ⟨.data d ws, Evaluates.app_fields hws hne hd, by rw [Value.equal, hequal, hsame]; rfl⟩

theorem Value.exists_denotesAll : ∀ {vs : List Value} {es : List Expr}, Value.areReadable Γ vs = true →
    Expr.unplacedAll es = Expr.unplacedAll (surfaceValues vs) →
    ∃ ws, List.Forall₂ Expr.Denotes es ws ∧ Value.equalAll ws vs = true
  | [], [], _, _ => ⟨[], .nil, rfl⟩
  | v :: vs, e :: es, h, hes => by
      simp only [Value.areReadable, Bool.and_eq_true] at h
      simp only [surfaceValues, Expr.unplacedAll, List.cons.injEq] at hes
      obtain ⟨w, hw, hequal⟩ := Value.exists_denotes h.1 hes.1
      obtain ⟨ws, hws, hequals⟩ := Value.exists_denotesAll h.2 hes.2
      exact ⟨w :: ws, .cons hw hws, by rw [Value.equalAll, hequal, hequals]; rfl⟩
  | [], e :: es, _, hes => by simp [surfaceValues, Expr.unplacedAll] at hes
  | v :: vs, [], _, hes => by simp [surfaceValues, Expr.unplacedAll] at hes

end

/-- The text of a value is read without a message, and what is read comes to the value. -/
theorem Value.exists_denotes_parseExpr {v : Value} (h : v.isReadable Γ = true) :
    (Parser.parseExpr (Text.encode v.render) Γ).2.diags = [] ∧
      ∃ w, (Parser.parseExpr (Text.encode v.render) Γ).1.Denotes w ∧ w.equal v = true := by
  have hsurface := Value.isWellFormed_surface h
  have htext : v.render = Layout.expr v.surface := by
    rw [Layout.expr, Expr.surface_eq hsurface, Value.render_eq_exprAt (Value.isGround_of_isReadable h)]
  rw [htext]
  obtain ⟨hdiags, htree⟩ := Layout.parseExpr_expr hsurface
  exact ⟨hdiags, Value.exists_denotes h htree⟩

/-! ## Values with the same text -/

theorem Expr.Denotes.exists_run {e : Expr} {v : Value} (h : e.Denotes v) :
    ∃ n, ∀ σ env, Machine.run 0 Machine.quiet ⟨σ, env, e⟩ = some ⟨.ok v, n, σ⟩ := by
  obtain ⟨n, hv⟩ := h
  exact ⟨n, fun σ env => Machine.run_eq_of_evaluates le_rfl (hv .whole σ env)⟩

/-- What an expression denotes is unique, since a run has one result. -/
theorem Expr.Denotes.unique {e : Expr} {v w : Value} (hv : e.Denotes v) (hw : e.Denotes w) : v = w := by
  obtain ⟨n, hrun⟩ := hv.exists_run
  obtain ⟨m, hrun'⟩ := hw.exists_run
  have heq := (hrun .empty .empty).symm.trans (hrun' .empty .empty)
  cases heq
  rfl

section Carried

variable (Δ)

/-- The constructor that the table knows by the name of `c`, if there is one. -/
def Constructor.carried (c : Constructor) : Constructor := (Δ.find? c.name).getD c

mutual

/-- A value with the constructors of the table in place of its own. -/
def Value.carried : Value → Value
  | .data c fields => .data (c.carried Δ) (Value.carriedAll fields)
  | v => v

def Value.carriedAll : List Value → List Value
  | [] => []
  | v :: vs => v.carried :: Value.carriedAll vs

end

theorem Constructor.name_carried (c : Constructor) : (c.carried Δ).name = c.name := by
  unfold Constructor.carried
  cases hd : Δ.find? c.name with
  | none => rfl
  | some d =>
      have hname := List.find?_some hd
      simpa using hname

theorem Constructor.isKnown_carried {c : Constructor} (hname : isName c.name = true)
    (hc : Δ.contains c.name = true) : (c.carried Δ).isKnown Δ = true := by
  obtain ⟨d, hd⟩ := Option.isSome_iff_exists.mp hc
  have hcarried : c.carried Δ = d := by rw [Constructor.carried, hd, Option.getD_some]
  rw [Constructor.isKnown, Constructor.name_carried, hname, hd, hcarried]
  simp

theorem Value.isCompound_carried (v : Value) : (v.carried Δ).isCompound = v.isCompound := by
  cases v with
  | data c fields => cases fields <;> rfl
  | _ => rfl

mutual

theorem Value.render_carried : ∀ v : Value, (v.carried Δ).render = v.render
  | .absent => rfl
  | .int _ => rfl
  | .bool _ => rfl
  | .closure .. => rfl
  | .data c fields => by
      rw [Value.carried, Value.render, Value.render, Constructor.name_carried,
        Value.renderFields_carried fields]

theorem Value.renderFields_carried : ∀ vs : List Value,
    Value.renderFields (Value.carriedAll Δ vs) = Value.renderFields vs
  | [] => rfl
  | v :: vs => by
      rw [Value.carriedAll, Value.renderFields_cons, Value.renderFields_cons, Value.isCompound_carried,
        Value.render_carried v, Value.renderFields_carried vs]

end

mutual

theorem Value.carried_equal : ∀ {v : Value}, v.isReadable Γ = true → (v.carried Δ).equal v = true
  | .int _, _ => by simp [Value.carried, Value.equal]
  | .bool _, _ => by simp [Value.carried, Value.equal]
  | .data c fields, h => by
      simp only [Value.isReadable, Bool.and_eq_true] at h
      rw [Value.carried, Value.equal, Constructor.same, Constructor.name_carried,
        Value.carriedAll_equal h.2]
      simp

theorem Value.carriedAll_equal : ∀ {vs : List Value}, Value.areReadable Γ vs = true →
    Value.equalAll (Value.carriedAll Δ vs) vs = true
  | [], _ => rfl
  | v :: vs, h => by
      simp only [Value.areReadable, Bool.and_eq_true] at h
      rw [Value.carriedAll, Value.equalAll, Value.carried_equal h.1, Value.carriedAll_equal h.2]
      rfl

end

variable {Δ}

mutual

/-- A value can be read with a table that knows all the names. -/
theorem Value.isReadable_carried (hΔ : ∀ x, Γ.contains x = true → Δ.contains x = true) :
    ∀ {v : Value}, v.isReadable Γ = true → (v.carried Δ).isReadable Δ = true
  | .int _, _ => rfl
  | .bool _, _ => rfl
  | .data c fields, h => by
      simp only [Value.isReadable, Constructor.isKnown, Bool.and_eq_true, beq_iff_eq] at h
      have hc : Γ.contains c.name = true := by rw [CtorTable.contains, h.1.2]; rfl
      rw [Value.carried, Value.isReadable, Constructor.isKnown_carried Δ h.1.1 (hΔ _ hc),
        Value.areReadable_carriedAll hΔ h.2]
      rfl

theorem Value.areReadable_carriedAll (hΔ : ∀ x, Γ.contains x = true → Δ.contains x = true) :
    ∀ {vs : List Value}, Value.areReadable Γ vs = true →
      Value.areReadable Δ (Value.carriedAll Δ vs) = true
  | [], _ => rfl
  | v :: vs, h => by
      simp only [Value.areReadable, Bool.and_eq_true] at h
      rw [Value.carriedAll, Value.areReadable, Value.isReadable_carried hΔ h.1,
        Value.areReadable_carriedAll hΔ h.2]
      rfl

end

end Carried

theorem CtorTable.contains_append (x : String) :
    CtorTable.contains (Γ ++ Δ) x = (Γ.contains x || Δ.contains x) := by
  simp [CtorTable.contains, CtorTable.find?, List.find?_append, Option.isSome_or]

/-- Values with the same text are equal, whatever the tables are that know their constructors. -/
theorem Value.equal_of_render_eq {v w : Value} (hv : v.isReadable Γ = true)
    (hw : w.isReadable Δ = true) (h : v.render = w.render) : v.equal w = true := by
  have hv' : (v.carried (Γ ++ Δ)).isReadable (Γ ++ Δ) = true :=
    Value.isReadable_carried (fun x hx => by rw [CtorTable.contains_append, hx, Bool.true_or]) hv
  have hw' : (w.carried (Γ ++ Δ)).isReadable (Γ ++ Δ) = true :=
    Value.isReadable_carried (fun x hx => by rw [CtorTable.contains_append, hx, Bool.or_true]) hw
  obtain ⟨-, u, hu, huv⟩ := Value.exists_denotes_parseExpr hv'
  obtain ⟨-, u', hu', huw⟩ := Value.exists_denotes_parseExpr hw'
  -- both texts are the same, so what is read is the same expression
  rw [Value.render_carried] at hu hu'
  rw [h] at hu
  obtain rfl := hu.unique hu'
  have hcarried := Value.equal_of_equal huv huw
  have hwv := Value.equal_of_equal hcarried (Value.carried_equal _ hv)
  exact Value.equal_of_equal hwv (Value.carried_equal _ hw)

/-! ## Reading back -/

/-- **Printed values are read back.** The text of a value without functions is read without a message if
its constructors are known, and running what has been read ends with an equal value, from every
environment. Values with the same text are therefore equal. -/
theorem Value.run_parseExpr_render (Γ : CtorTable) :
    (∀ v : Value, v.isReadable Γ = true →
      (Parser.parseExpr (Text.encode v.render) Γ).2.diags = [] ∧
        ∀ σ env, ∃ w n,
          Machine.run 0 Machine.quiet ⟨σ, env, (Parser.parseExpr (Text.encode v.render) Γ).1⟩
            = some ⟨.ok w, n, σ⟩ ∧ w.equal v = true) ∧
    ∀ (Δ : CtorTable) (v w : Value), v.isReadable Γ = true → w.isReadable Δ = true →
      v.render = w.render → v.equal w = true := by
  refine ⟨fun v hv => ?_, fun Δ v w => Value.equal_of_render_eq⟩
  obtain ⟨hdiags, w, hw, hequal⟩ := Value.exists_denotes_parseExpr hv
  obtain ⟨n, hrun⟩ := hw.exists_run
  exact ⟨hdiags, fun σ env => ⟨w, n, hrun σ env, hequal⟩⟩

/-- The least integer as a field, a constructor with a field too few and one with a field too many; and
two tables with different constructors of one name. -/
theorem Value.run_parseExpr_render_nested :
    let pair : Constructor := ⟨"Pair", [.name .unknown "Int", .name .unknown "T"], "T", .unknown⟩
    let leaf : Constructor := ⟨"Leaf", [], "T", .unknown⟩
    let other : Constructor := ⟨"Leaf", [.name .unknown "Int"], "U", ⟨2, 1⟩⟩
    let v : Value := .data pair [.int Int64.minValue, .data leaf [.bool true, .data pair [.int 1]]]
    (v.isReadable [pair, leaf] = true ∧
      (Parser.parseExpr (Text.encode v.render) [pair, leaf]).2.diags = [] ∧
        ∀ σ env, ∃ w n,
          Machine.run 0 Machine.quiet
              ⟨σ, env, (Parser.parseExpr (Text.encode v.render) [pair, leaf]).1⟩
            = some ⟨.ok w, n, σ⟩ ∧ w.equal v = true) ∧
    (Value.data leaf [.int 2]).isReadable [pair, leaf] = true ∧
      (Value.data other [.int 2]).isReadable [other] = true ∧
      (Value.data leaf [.int 2]).render = (Value.data other [.int 2]).render ∧
      (Value.data leaf [.int 2]).equal (.data other [.int 2]) = true := by
  intro pair leaf other v
  have hv : v.isReadable [pair, leaf] = true := by decide
  have hleaf : (Value.data leaf [.int 2]).isReadable [pair, leaf] = true := by decide
  have hother : (Value.data other [.int 2]).isReadable [other] = true := by decide
  have htext : (Value.data leaf [.int 2]).render = (Value.data other [.int 2]).render := rfl
  exact ⟨⟨hv, (Value.run_parseExpr_render _).1 v hv⟩, hleaf, hother, htext,
    (Value.run_parseExpr_render _).2 _ _ _ hleaf hother htext⟩

end FunLang
