import FunLang.Proofs.BigStep.Runs

set_option autoImplicit false

/-!
# Arithmetic modulo 2^64

Sums, differences and products wrap around at 64 bits, each for itself. For a whole tree of them this
makes no difference: what it comes to is its exact value among all the integers, brought into the range
of 64 bits once, at the end. The reason is that bringing into range is a homomorphism (`eval?_ofInt`), so
it may be put off from operator to operator.

Every literal takes one step and so does every operator. So a run takes as many steps as the tree has
nodes.
-/

namespace FunLang

/-- The operators that make an integer of two integers. -/
inductive ArithOp where
  | add
  | sub
  | mul

namespace ArithOp

def binOp : ArithOp → BinOp
  | add => .add
  | sub => .sub
  | mul => .mul

/-- What the operator makes of two integers of any size. -/
def exact : ArithOp → Int → Int → Int
  | add, a, b => a + b
  | sub, a, b => a - b
  | mul, a, b => a * b

/-- Bringing integers into the range of 64 bits goes together with the operators. -/
theorem eval?_ofInt (o : ArithOp) (a b : Int) :
    o.binOp.eval? (.int (.ofInt a)) (.int (.ofInt b)) = some (.int (.ofInt (o.exact a b))) := by
  cases o with
  | add => rw [exact, Int64.ofInt_add]; rfl
  | sub => rw [exact, Int64.ofInt_sub]; rfl
  | mul => rw [exact, Int64.ofInt_mul]; rfl

end ArithOp

/-- An operator on parts whose values are known up to what does not fit into 64 bits. -/
theorem Evaluates.arith {pl : Place} {σ σ₁ σ₂ : Store} {env : Env} {p : Pos} {l r : Expr} {m n : Nat}
    {a b : Int} (o : ArithOp) (hl : Evaluates .part σ env l m (.value (.int (.ofInt a)) σ₁))
    (hr : Evaluates .part σ₁ env r n (.value (.int (.ofInt b)) σ₂)) :
    Evaluates pl σ env (.binary p o.binOp l r) (m + n + 1) (.value (.int (.ofInt (o.exact a b))) σ₂) := by
  have hop : o.binOp.outcome p (.int (.ofInt a)) (.int (.ofInt b)) σ₂
      = .value (.int (.ofInt (o.exact a b))) σ₂ := by
    rw [BinOp.outcome, o.eval?_ofInt]
  rw [← hop, Nat.add_assoc]
  exact .binary hl hr

/-- A tree of integer literals under the operators. -/
inductive Arith where
  | lit (p : Pos) (n : Int64)
  | op (p : Pos) (o : ArithOp) (l r : Arith)

namespace Arith

/-- The tree as an expression. -/
def expr : Arith → Expr
  | lit p n => .int p n
  | op p o l r => .binary p o.binOp l.expr r.expr

/-- The value of the tree among all the integers. -/
def exact : Arith → Int
  | lit _ n => n.toInt
  | op _ o l r => o.exact l.exact r.exact

/-- The number of literals and operators. -/
def nodes : Arith → Nat
  | lit _ _ => 1
  | op _ _ l r => l.nodes + r.nodes + 1

/-- A tree comes to its exact value, brought into range, whatever the environment and the knots. -/
theorem evaluates (t : Arith) (pl : Place) (σ : Store) (env : Env) :
    Evaluates pl σ env t.expr t.nodes (.value (.int (.ofInt t.exact)) σ) := by
  induction t generalizing pl with
  | lit p n =>
      rw [exact, Int64.ofInt_toInt]
      exact .int
  | op p o l r ihl ihr => exact .arith o (ihl .part) (ihr .part)

/-- **Arithmetic is exact modulo 2^64.** The run of a tree ends with its exact value, brought into the range
of 64 bits once, after as many steps as the tree has nodes, and leaves the knots alone. -/
theorem run_expr (t : Arith) (σ : Store) (env : Env) :
    Machine.run 0 Machine.quiet ⟨σ, env, t.expr⟩
      = some ⟨.ok (.int (.ofInt t.exact)), t.nodes, σ⟩ :=
  Machine.run_eq_of_evaluates le_rfl (t.evaluates .whole σ env)

end Arith

end FunLang
