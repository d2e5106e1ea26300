import FunLang.Names
import FunLang.Syntax

set_option autoImplicit false

/-!
# Environments and knots

An environment binds names to values. A recursive binding needs its own value while that is being
computed: its name is bound to a knot, a reference into a store that is given its value later. The
store keeps the knots of a whole evaluation, so that every environment which shares a knot sees it
resolved.
-/

namespace FunLang

/-- A forward reference with the name it was made for and, once it is resolved, its value. -/
structure Knot where
  name : String
  value? : Option Value
deriving Inhabited

/-- The knots of an evaluation, and the number of function values it has made. -/
structure Store where
  knots : Array Knot
  labels : Nat
deriving Inhabited

namespace Store

def empty : Store := ⟨#[], 0⟩

/-- Makes an unresolved knot. Its number is the size of the store so far. -/
def addKnot (σ : Store) (name : String) : Store := { σ with knots := σ.knots.push ⟨name, none⟩ }

/-- The value of a knot, if it is resolved. -/
def knotValue? (σ : Store) (k : Nat) : Option Value := σ.knots[k]?.bind (·.value?)

/-- Gives a knot its value. Only the first value counts, and an absent one is none. -/
def resolve (σ : Store) (k : Nat) (v : Value) : Store :=
  match v with
  | .absent => σ
  | v => { σ with knots := σ.knots.modify k fun knot =>
      if knot.value?.isSome then knot else { knot with value? := some v } }

/-- Makes a label that no function value has. -/
def addLabel (σ : Store) : Store := { σ with labels := σ.labels + 1 }

end Store

/-- What a name turns out to be bound to. -/
inductive Lookup where
  | unbound
  | unresolved
  | found (v : Value)

namespace Env

/-- The binding of a name: the latest one counts. -/
inductive Binding where
  | value (v : Value)
  | knot (k : Nat)

def find? : Env → String → Option Binding
  | .empty, _ => none
  | .bind env x v, y => if x = y then some (.value v) else env.find? y
  | .bindKnot env x k, y => if x = y then some (.knot k) else env.find? y

/-- What a name is bound to, given the knots that have been resolved. -/
def lookup (σ : Store) (env : Env) (x : String) : Lookup :=
  match env.find? x with
  | none => .unbound
  | some (.value v) => .found v
  | some (.knot k) =>
    match σ.knotValue? k with
    | some v => .found v
    | none => .unresolved

/-- Whether a name is bound, to a value or to a knot. -/
def contains (env : Env) (x : String) : Bool := (env.find? x).isSome

/-- The bound names, in ascending order. -/
def names : Env → List String
  | .empty => []
  | .bind env x _ => Names.insert x env.names
  | .bindKnot env x _ => Names.insert x env.names

/-- The number of bound names. -/
def size (env : Env) : Nat := env.names.length

/-- Binds names to values, one after the other. -/
def bindAll (env : Env) (bs : List (String × Value)) : Env :=
  bs.foldl (fun env b => .bind env b.1 b.2) env

/-- The names of an environment with what they are bound to. -/
def entries (σ : Store) (env : Env) : List (String × Lookup) :=
  env.names.map fun x => (x, env.lookup σ x)

end Env

end FunLang
