import FunLang.Proofs.Arithmetic.Trees
import FunLang.Proofs.Knots.Store
import FunLang.Proofs.Layout.RoundTrip

set_option autoImplicit false

/-!
# A recursive sum

What the expression `let sum = \k -> if k <= 0 then 0 else k + sum (k - 1) in sum n` comes to, from its
text to its value and the number of steps.

The function refers to itself by a knot that the `let` has made and then resolved with it. So the name
`sum` leads back to the function under each of the environments in which its body is evaluated, and what
a call costs is what the next call costs and eleven steps more (`evaluates_sumBody`). The value wraps
around, but the number of steps is the mathematical one: for large `n` it is more than 64 bits can count.
-/

namespace FunLang.Summation

open FunLang.Parser

/-! ## The expression and its text -/

/-- `if k <= 0 then 0 else k + sum (k - 1)`, with its parts at the given places. -/
def sumBody (p : Nat → Pos) : Expr :=
  .cond (p 0) (.binary (p 1) .le (.var (p 2) "k") (.int (p 3) 0)) (.int (p 4) 0)
    (.binary (p 5) .add (.var (p 6) "k")
      (.app (p 7) (.var (p 8) "sum") [.binary (p 9) .sub (.var (p 10) "k") (.int (p 11) 1)]))

/-- `let sum = \k -> if k <= 0 then 0 else k + sum (k - 1) in sum n`, with its parts at the given
places. -/
def sumTo (p : Nat → Pos) (n : Int64) : Expr :=
  .letIn (p 12) "sum" (.fn (p 13) "k" (sumBody p)) (.app (p 14) (.var (p 15) "sum") [.int (p 16) n])

/-- The same as a text. -/
def sumText (n : Int64) : String :=
  "let sum = \\k -> if k <= 0 then 0 else k + sum (k - 1) in sum " ++ toString n.toInt

/-- No places at all. -/
def nowhere : Nat → Pos := fun _ => .unknown

theorem isWellFormed_sumTo (n : Int64) : (sumTo nowhere n).isWellFormed [] = true := by
  show (sumTo nowhere 0).isWellFormed [] = true
  decide

theorem expr_sumTo {n : Int64} (hn : 0 ≤ n.toInt) : Layout.expr (sumTo nowhere n) = sumText n := by
  have hfn : Layout.exprAt Layout.top (.fn .unknown "k" (sumBody nowhere))
      = "\\k -> if k <= 0 then 0 else k + sum (k - 1)" := by decide
  have happ : Layout.exprAt Layout.top (.app .unknown (.var .unknown "sum") [.int .unknown n])
      = "sum " ++ toString n.toInt := by
    calc _ = "sum" ++ " " ++ Layout.int true n ++ "" := rfl
      _ = "sum " ++ toString n.toInt := by rw [String.append_empty, Layout.int_of_nonneg hn]; rfl
  calc Layout.expr (sumTo nowhere n)
      = Layout.exprAt Layout.top (sumTo nowhere n) := by
        rw [Layout.expr, Expr.surface_eq (isWellFormed_sumTo n)]
    _ = "let " ++ "sum" ++ " = " ++ "\\k -> if k <= 0 then 0 else k + sum (k - 1)" ++ " in "
          ++ ("sum " ++ toString n.toInt) := by
        rw [← hfn, ← happ]
        rfl
    _ = sumText n := by
        rw [← String.append_assoc]
        rfl

/-- An expression that is the sum up to places is the sum with its parts at some places. -/
theorem exists_places_of_unplaced {e : Expr} {n : Int64} (h : e.unplaced = sumTo nowhere n) :
    ∃ p, e = sumTo p n := by
  obtain ⟨p₁₂, f, b, rfl, hf, hb⟩ := Expr.exists_of_unplaced_letIn h
  obtain ⟨p₁₃, c, rfl, hc⟩ := Expr.exists_of_unplaced_fn hf
  obtain ⟨p₁₄, g, a, rfl, hg, ha⟩ := Expr.exists_of_unplaced_app_one hb
  obtain ⟨p₁₅, rfl⟩ := Expr.exists_of_unplaced_var hg
  obtain ⟨p₁₆, rfl⟩ := Expr.exists_of_unplaced_int ha
  obtain ⟨p₀, test, yes, no, rfl, htest, hyes, hno⟩ := Expr.exists_of_unplaced_cond hc
  obtain ⟨p₁, k, z, rfl, hk, hz⟩ := Expr.exists_of_unplaced_binary htest
  obtain ⟨p₂, rfl⟩ := Expr.exists_of_unplaced_var hk
  obtain ⟨p₃, rfl⟩ := Expr.exists_of_unplaced_int hz
  obtain ⟨p₄, rfl⟩ := Expr.exists_of_unplaced_int hyes
  obtain ⟨p₅, k, call, rfl, hk, hcall⟩ := Expr.exists_of_unplaced_binary hno
  obtain ⟨p₆, rfl⟩ := Expr.exists_of_unplaced_var hk
  obtain ⟨p₇, g, a, rfl, hg, ha⟩ := Expr.exists_of_unplaced_app_one hcall
  obtain ⟨p₈, rfl⟩ := Expr.exists_of_unplaced_var hg
  obtain ⟨p₉, k, one, rfl, hk, hone⟩ := Expr.exists_of_unplaced_binary ha
  obtain ⟨p₁₀, rfl⟩ := Expr.exists_of_unplaced_var hk
  obtain ⟨p₁₁, rfl⟩ := Expr.exists_of_unplaced_int hone
  exact ⟨fun i => [p₀, p₁, p₂, p₃, p₄, p₅, p₆, p₇, p₈, p₉, p₁₀, p₁₁, p₁₂, p₁₃, p₁₄, p₁₅, p₁₆].getD i
    .unknown, rfl⟩

/-- The text is read without a message, and what is read is the expression. -/
theorem parseExpr_sumText {n : Int64} (hn : 0 ≤ n.toInt) :
    (parseExpr (Text.encode (sumText n)) []).2.diags = [] ∧
      ∃ p, (parseExpr (Text.encode (sumText n)) []).1 = sumTo p n := by
  have hparse := Layout.parseExpr_expr (isWellFormed_sumTo n)
  rw [expr_sumTo hn] at hparse
  exact ⟨hparse.1, exists_places_of_unplaced hparse.2⟩

/-! ## A call -/

/-- The sum up to `m + 1` from the one up to `m`. -/
theorem triangle_succ (m : Int) : (m + 1) * (m + 1 + 1) / 2 = m + 1 + m * (m + 1) / 2 := by
  have hdouble : (m + 1) * (m + 1 + 1) = m * (m + 1) + (m + 1) * 2 := by ring
  rw [hdouble, Int.add_mul_ediv_right _ _ (by decide), Int.add_comm]

theorem not_ofInt_succ_le_zero {m : Int} (hm : 0 ≤ m) (hmax : m + 1 < 2 ^ 63) :
    ¬ Int64.ofInt (m + 1) ≤ 0 := by
  rw [Int64.le_iff_toInt_le, Int64.toInt_ofInt_of_le (by omega) hmax, Int64.toInt_zero]
  omega

section Call

variable {σ : Store} {env : Env} {label : Nat} {p : Nat → Pos}

/-- Under the environment of the body `k` is the argument. -/
theorem evaluates_argument (k : Int64) (q : Pos) :
    Evaluates .part σ (.bind env "k" (.int k)) (.var q "k") 1 (.value (.int k) σ) :=
  .var rfl (by simp)

theorem evaluates_test (σ : Store) (env : Env) (p : Nat → Pos) (k : Int64) :
    Evaluates .part σ (.bind env "k" (.int k)) (.binary (p 1) .le (.var (p 2) "k") (.int (p 3) 0)) 3
      (.value (.bool (k ≤ 0)) σ) :=
  .binary (evaluates_argument k _) .int

/-- What a call of the function comes to where its name leads back to it: each call but the last costs
eleven steps. -/
theorem evaluates_sumBody
    (hself : env.lookup σ "sum" = .found (.closure label "k" (sumBody p) env)) (m : Nat)
    (hm : (m : Int) < 2 ^ 63) :
    Evaluates .whole σ (.bind env "k" (.int (.ofInt m))) (sumBody p) (11 * m + 5)
      (.value (.int (.ofInt (m * (m + 1) / 2))) σ) := by
  induction m with
  | zero => exact (Evaluates.cond_yes (evaluates_test σ env p 0) .int).of_cost rfl
  | succ m ih =>
      have hmax : (m : Int) + 1 < 2 ^ 63 := by omega
      have htest := evaluates_test σ env p (.ofInt (m + 1))
      rw [decide_eq_false (not_ofInt_succ_le_zero (Int.natCast_nonneg m) hmax)] at htest
      have hk : ∀ q, Evaluates .part σ (.bind env "k" (.int (.ofInt (m + 1)))) (.var q "k") 1
          (.value (.int (.ofInt (m + 1))) σ) := evaluates_argument _
      have harg : Evaluates .part σ (.bind env "k" (.int (.ofInt (m + 1))))
          (.binary (p 9) .sub (.var (p 10) "k") (.int (p 11) 1)) 3
          (.value (.int (.ofInt (m + 1 - 1))) σ) := .arith (b := 1) .sub (hk _) .int
      rw [Int.add_sub_cancel] at harg
      -- the environment of the body leads from `sum` to the one in which the function was made
      have hsum : Evaluates .part σ (.bind env "k" (.int (.ofInt (m + 1)))) (.var (p 8) "sum") 1
          (.value (.closure label "k" (sumBody p) env) σ) := .var hself (by simp)
      have hcall : Evaluates .part σ (.bind env "k" (.int (.ofInt (m + 1))))
          (.app (p 7) (.var (p 8) "sum") [.binary (p 9) .sub (.var (p 10) "k") (.int (p 11) 1)])
          (11 * m + 10) (.value (.int (.ofInt (m * (m + 1) / 2))) σ) :=
        (Evaluates.app_closure_last harg hsum (ih (by omega))).of_cost (by omega)
      rw [Nat.cast_succ, triangle_succ]
      exact (Evaluates.cond_no htest (.arith .add (hk _) hcall)).of_cost (by omega)

end Call

/-! ## The whole expression -/

/-- The `let` makes a knot and resolves it with the function, which is then called. -/
theorem evaluates_sumTo (p : Nat → Pos) (m : Nat) (hm : (m : Int) < 2 ^ 63) (σ : Store) (env : Env) :
    ∃ τ, Evaluates .whole σ env (sumTo p (.ofInt m)) (11 * m + 11)
      (.value (.int (.ofInt (m * (m + 1) / 2))) τ) := by
  let within : Env := .bindKnot env "sum" σ.knots.size
  let f : Value := .closure σ.labels "k" (sumBody p) within
  let made : Store := (σ.addKnot "sum").addLabel
  let tied : Store := made.resolve σ.knots.size f
  have hfn : Evaluates .whole (σ.addKnot "sum") within (.fn (p 13) "k" (sumBody p)) 1
      (.value f made) := .fn
  have hne : f ≠ .absent := by simp [f]
  have hknot : made.knots[σ.knots.size]? = some ⟨"sum", none⟩ := by
    simp [made, Store.addLabel, Store.addKnot]
  -- from here on the name leads to the function, inside of it and in the body of the `let`
  have hself : within.lookup tied "sum" = .found f := by
    simp [within, Env.lookup, Env.find?, tied, Store.knotValue?_resolve hne hknot]
  have hname : (Env.bind env "sum" f).lookup tied "sum" = .found f := by
    simp [Env.lookup, Env.find?]
  have hcall : Evaluates .whole tied (.bind env "sum" f)
      (.app (p 14) (.var (p 15) "sum") [.int (p 16) (.ofInt m)]) (11 * m + 8)
      (.value (.int (.ofInt (m * (m + 1) / 2))) tied) :=
    (Evaluates.app_closure_last .int (.var hname hne) (evaluates_sumBody hself m hm)).of_cost (by omega)
  exact ⟨tied, (Evaluates.letIn hfn hcall).of_cost (by omega)⟩

/-- **The recursive sum.** For an `n` that is not negative the text is read as the expression, and wherever
its parts stand, the run of the expression from any environment ends with `n (n + 1) / 2`, brought into the
range of 64 bits, after `11 n + 11` steps. -/
theorem run_sumTo {n : Int64} (hn : 0 ≤ n) (σ : Store) (env : Env) :
    ((parseExpr (Text.encode (sumText n)) []).2.diags = [] ∧
      ∃ p, (parseExpr (Text.encode (sumText n)) []).1 = sumTo p n) ∧
    ∀ p, ∃ τ, Machine.run 0 Machine.quiet ⟨σ, env, sumTo p n⟩
      = some ⟨.ok (.int (.ofInt (n.toInt * (n.toInt + 1) / 2))), 11 * n.toInt.toNat + 11, τ⟩ := by
  have hnonneg : 0 ≤ n.toInt := by
    rwa [Int64.le_iff_toInt_le, Int64.toInt_zero] at hn
  refine ⟨parseExpr_sumText hnonneg, fun p => ?_⟩
  obtain ⟨m, hm⟩ := Int.eq_ofNat_of_zero_le hnonneg
  have hmax := n.toInt_lt
  obtain ⟨τ, hτ⟩ := evaluates_sumTo p m (by omega) σ env
  have hofInt : Int64.ofInt m = n := by rw [← hm, Int64.ofInt_toInt]
  rw [hofInt, ← hm] at hτ
  rw [hm, Int.toNat_natCast, ← hm]
  exact ⟨τ, Machine.run_eq_of_evaluates le_rfl hτ⟩

/-- The sum up to the largest integer wraps around many times. -/
theorem run_sumTo_maxValue :
    (0 : Int64) ≤ Int64.maxValue ∧
      ∀ p, ∃ τ, Machine.run 0 Machine.quiet ⟨.empty, .empty, sumTo p Int64.maxValue⟩
        = some ⟨.ok (.int (-4611686018427387904)), 11 * 2 ^ 63, τ⟩ := by
  have hn : (0 : Int64) ≤ Int64.maxValue := by decide
  have hsum : Int64.ofInt (Int64.maxValue.toInt * (Int64.maxValue.toInt + 1) / 2)
      = -4611686018427387904 := by decide
  have hsteps : 11 * Int64.maxValue.toInt.toNat + 11 = 11 * 2 ^ 63 := by decide
  refine ⟨hn, fun p => ?_⟩
  rw [← hsum, ← hsteps]
  exact (run_sumTo hn .empty .empty).2 p

end FunLang.Summation
