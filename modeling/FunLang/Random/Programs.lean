import FunLang.Random.Words
import FunLang.Syntax

set_option autoImplicit false

/-!
# Random programs

Programs that a seed determines, within given constraints: how deep an expression may be, which
integers it may mention, which data types it may use, and whether all its variables are bound.
-/

namespace FunLang.Random

/-- Bounds on the shape of random programs. -/
structure Constraints where
  lower : Int64
  upper : Int64
  /-- How deep expressions may be nested. -/
  maxDepth : Int
  /-- Whether variables refer only to names that are bound around them. -/
  closed : Bool
  /-- The number of data declarations. -/
  data : Int
deriving DecidableEq, Repr, Inhabited

namespace Constraints

def default : Constraints := ⟨-100, 100, 5, true, 2⟩

end Constraints

/-! ## The data types that programs may use -/

def intType : Ty := .name .unknown "Int"

def boolType : Ty := .name .unknown "Bool"

/-- A declaration from the names of the constructors and their fields. -/
def dataType (name : String) (ctors : List (String × List Ty)) : DataDecl :=
  ⟨name, ctors.map fun (c, fields) => ⟨c, fields, name, .unknown⟩, .unknown⟩

/-- The declarations from which the first ones are taken. -/
def dataPool : List DataDecl :=
  [dataType "List" [("Nil", []), ("Cons", [intType, .name .unknown "List"])],
    dataType "Shape" [("Circle", [intType]), ("Rect", [intType, intType]), ("Dot", [])],
    dataType "Pair" [("Pair", [intType, boolType])],
    dataType "Box" [("Box", [.arrow .unknown intType intType])]]

namespace Constraints

/-- The constraints with inverted or impossible bounds put right. -/
def normalize (c : Constraints) : Constraints :=
  { c with
    upper := max c.lower c.upper
    maxDepth := max 1 c.maxDepth
    data := min dataPool.length (max 0 c.data) }

/-- The data declarations of programs within the constraints. -/
def decls (c : Constraints) : List DataDecl := dataPool.take c.normalize.data.toNat

/-- The constructors of these declarations. -/
def ctors (c : Constraints) : List Constructor := c.decls.flatMap (·.ctors)

end Constraints

/-! ## Parts of programs -/

def binder : Gen String := choose "x" ["y", "z", "f", "g", "n", "acc", "k"]

def operator : Gen BinOp := choose .add [.sub, .mul, .lt, .gt, .le, .ge]

def intExpr (c : Constraints) : Gen Expr :=
  return .int .unknown (← number c.lower c.upper)

/-- A variable that is bound around its place, or any variable where that is allowed; else a number. -/
def variableOr (c : Constraints) (scope : List String) : Gen Expr := do
  match scope with
  | x :: xs =>
    if c.closed then return .var .unknown (← choose x xs)
    else if ← chance 80 then return .var .unknown (← choose x xs)
    else return .var .unknown (← binder)
  | [] => if c.closed then intExpr c else return .var .unknown (← binder)

/-- An expression without parts. -/
def leaf (c : Constraints) (scope : List String) : Gen Expr := do
  match ← below 5 with
  | 0 | 1 => intExpr c
  | 2 => return .bool .unknown (← chance 50)
  | 3 =>
    match c.ctors.filter (·.arity == 0) with
    | d :: ds => return .ctor .unknown (← choose d ds)
    | [] => variableOr c scope
  | _ => variableOr c scope

/-- A named type, or a function type that `arrow` draws. -/
def typeOr (c : Constraints) (arrow : Gen Ty) : Gen Ty := do
  match ← below 4 with
  | 0 => return intType
  | 1 => return boolType
  | 2 =>
    match c.decls with
    | d :: ds => return .name .unknown (← choose d ds).name
    | [] => return intType
  | _ => arrow

/-- A type in which arrows are at most so deep. -/
def type (c : Constraints) : (depth : Nat) → Gen Ty
  | 0 => typeOr c (pure intType)
  | depth + 1 => typeOr c do return .arrow .unknown (← type c depth) (← type c depth)

def varPattern : Gen Pattern := return .var .unknown (← binder)

/-- A literal, a variable, or a pattern that `compound` draws. -/
def patternOr (c : Constraints) (compound : Gen Pattern) : Gen Pattern := do
  match ← below 4 with
  | 0 => return .int .unknown (← number c.lower c.upper)
  | 1 => return .bool .unknown (← chance 50)
  | 2 => compound
  | _ => varPattern

/-- A pattern in which constructors are at most so deep. -/
def pattern (c : Constraints) : (depth : Nat) → Gen Pattern
  | 0 => patternOr c varPattern
  | depth + 1 =>
    patternOr c do
      match c.ctors with
      | [] => varPattern
      | d :: ds =>
        let ctor ← choose d ds
        return .ctor .unknown ctor (← ctor.fields.mapM fun _ => pattern c depth)

/-- Runs a generator so many times. -/
def times {α : Type} (n : Nat) (g : Gen α) : Gen (List α) := (List.replicate n ()).mapM fun _ => g

/-! ## Expressions -/

mutual

/-- An expression that is at most so deep. -/
def expr (c : Constraints) (depth : Nat) (scope : List String) : Gen Expr := do
  match depth with
  | 0 | 1 => leaf c scope
  | d + 2 =>
    let sub : Gen Expr := expr c (d + 1) scope
    match ← below 10 with
    | 0 => leaf c scope
    | 1 | 2 => return .binary .unknown (← operator) (← sub) (← sub)
    | 3 => return .cond .unknown (← sub) (← sub) (← sub)
    | 4 => fn c (d + 1) scope
    | 5 => app c (d + 1) scope
    | 6 =>
      let name ← binder
      let inner := scope ++ [name]
      let recursive ← if d = 0 then pure false else chance 60
      let bound ← if recursive then fn c d inner else sub
      return .letIn .unknown name bound (← expr c (d + 1) inner)
    | 7 => cases c (d + 1) scope
    | 8 =>
      match c.ctors with
      | k :: ks => construct c (d + 1) scope k ks
      | [] => app c (d + 1) scope
    | _ => return .annot .unknown (← sub) (← type c 2)
termination_by (depth, 0)

/-- A function whose body is at most so deep. -/
def fn (c : Constraints) (depth : Nat) (scope : List String) : Gen Expr := do
  let param ← binder
  return .fn .unknown param (← expr c depth (scope ++ [param]))
termination_by (depth, 1)

/-- An application whose parts are at most so deep, or something simpler if there is no callee. -/
def app (c : Constraints) (depth : Nat) (scope : List String) : Gen Expr := do
  let callee : Option Expr ←
    if ← (if scope.isEmpty then pure false else chance 50) then
      match scope with
      | x :: xs => pure (some (.var .unknown (← choose x xs)))
      | [] => pure none
    else
      match depth with
      | 0 | 1 => pure none
      | d + 2 =>
        if ← (if d = 0 then pure false else chance 20) then pure (some (← app c (d + 1) scope))
        else pure (some (← fn c (d + 1) scope))
  match callee with
  | none => leaf c scope
  | some f =>
    let n ← below 3
    return .app .unknown f (← times (n + 1) (expr c depth scope))
termination_by (depth, 1)

/-- A constructor applied to as many arguments as it declares, or sometimes to one less. -/
def construct (c : Constraints) (depth : Nat) (scope : List String) (k : Constructor)
    (ks : List Constructor) : Gen Expr := do
  let ctor ← choose k ks
  let short ← if ctor.arity = 0 then pure false else chance 15
  let n := if short then ctor.arity - 1 else ctor.arity
  if n = 0 then return .ctor .unknown ctor
  else return .app .unknown (.ctor .unknown ctor) (← times n (expr c depth scope))
termination_by (depth, 1)

/-- A case expression whose parts are at most so deep. -/
def cases (c : Constraints) (depth : Nat) (scope : List String) : Gen Expr := do
  let scrutinee ← expr c depth scope
  let n ← below 3
  let alts ← times (n + 1) do
    let p ← pattern c 2
    return Alt.mk .unknown p (← expr c depth (scope ++ p.binders))
  return .cases .unknown scrutinee alts
termination_by (depth, 1)

end

/-- A random expression within the constraints, and the word after it. -/
def expression (c : Constraints) (word : UInt64) : Expr × UInt64 :=
  (expr c.normalize c.normalize.maxDepth.toNat []).run word

/-- A random program within the constraints, and the word after it. -/
def program (c : Constraints) (word : UInt64) : Program × UInt64 :=
  let (e, word) := expression c word
  (⟨[], c.decls, e⟩, word)

end FunLang.Random
