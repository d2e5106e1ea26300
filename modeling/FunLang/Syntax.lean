import FunLang.Token

set_option autoImplicit false

/-!
# Syntax

Types, constructors, patterns, expressions and programs, each with the place where it stands.

An expression is what a source text says, or what is left of it in the middle of an evaluation. The
first twelve forms are those of source text, where `missing` stands for an expression that is not
there. The others come up while an expression is evaluated (`value`, `within`, `tying`) or are
added by a tool that builds on the language (`custom`, `wrapped`). Values and environments belong to
the same family of types: a function value holds the expression of its body and the environment in
which it was made.
-/

namespace FunLang

/-! ## Operators -/

/-- The binary operators, and `unknown` for anything else in the place of one. -/
inductive BinOp where
  | add
  | sub
  | mul
  | lt
  | gt
  | le
  | ge
  | unknown
deriving DecidableEq, Repr, Inhabited

namespace BinOp

/-- The operator that a token stands for. -/
def ofKind : TokenKind → BinOp
  | .plus => add
  | .minus => sub
  | .star => mul
  | .lt => lt
  | .gt => gt
  | .leq => le
  | .geq => ge
  | _ => unknown

/-- The token that an operator is written with. -/
def kind : BinOp → TokenKind
  | add => .plus
  | sub => .minus
  | mul => .star
  | lt => .lt
  | gt => .gt
  | le => .leq
  | ge => .geq
  | unknown => .illegal

/-- The spelling of an operator. -/
def symbol : BinOp → String
  | add => "+"
  | sub => "-"
  | mul => "*"
  | lt => "<"
  | gt => ">"
  | le => "<="
  | ge => ">="
  | unknown => "?"

end BinOp

/-! ## Types and constructors -/

/-- A type: one that was left out, a name, or a function type. -/
inductive Ty where
  | missing
  | name (pos : Pos) (name : String)
  | arrow (pos : Pos) (param result : Ty)
deriving DecidableEq, Repr, Inhabited

namespace Ty

def isArrow : Ty → Bool
  | arrow .. => true
  | _ => false

/-- A type as it is written in source text. Arrows associate to the right. -/
def render : Ty → String
  | missing => "?"
  | name _ n => n
  | arrow _ param result =>
    (if param.isArrow then "(" ++ param.render ++ ")" else param.render) ++ " -> " ++ result.render

/-- A type as it is written as a field of a constructor. -/
def renderField (t : Ty) : String := if t.isArrow then "(" ++ t.render ++ ")" else t.render

/-- The fields of a constructor as they are written in its declaration. -/
def renderFields (ts : List Ty) : String := " ".intercalate (ts.map renderField)

end Ty

/-- A data constructor with its field types and the name of the type it belongs to. -/
structure Constructor where
  name : String
  fields : List Ty
  type : String
  pos : Pos
deriving DecidableEq, Repr, Inhabited

namespace Constructor

/-- The number of fields that a constructor declares. -/
def arity (c : Constructor) : Nat := c.fields.length

/-- Two constructors are the same for matching if they have the same name. -/
def same (a b : Constructor) : Bool := a.name == b.name

/-- The same, where a constructor may be absent: it is then the same only as another absent one. -/
def same? : Option Constructor → Option Constructor → Bool
  | some a, some b => a.same b
  | none, none => true
  | _, _ => false

end Constructor

/-! ## Patterns -/

inductive Pattern where
  | missing
  | int (pos : Pos) (value : Int64)
  | bool (pos : Pos) (value : Bool)
  | var (pos : Pos) (name : String)
  | ctor (pos : Pos) (c : Constructor) (args : List Pattern)
deriving Inhabited

namespace Pattern

def pos : Pattern → Pos
  | missing => .unknown
  | int p _ | bool p _ | var p _ | ctor p _ _ => p

mutual

/-- The names that a pattern binds, from left to right. -/
def binders : Pattern → List String
  | var _ name => [name]
  | ctor _ _ args => bindersAll args
  | _ => []

def bindersAll : List Pattern → List String
  | [] => []
  | p :: ps => binders p ++ bindersAll ps

end

end Pattern

/-! ## Expressions, values, environments -/

mutual

inductive Expr where
  /-- No expression where one is expected. -/
  | missing
  | var (pos : Pos) (name : String)
  | int (pos : Pos) (value : Int64)
  | bool (pos : Pos) (value : Bool)
  | binary (pos : Pos) (op : BinOp) (left right : Expr)
  | cond (pos : Pos) (test yes no : Expr)
  /-- A function of one parameter. -/
  | fn (pos : Pos) (param : String) (body : Expr)
  | app (pos : Pos) (func : Expr) (args : List Expr)
  /-- A binding whose name is in scope in the bound expression too. -/
  | letIn (pos : Pos) (name : String) (bound body : Expr)
  | annot (pos : Pos) (expr : Expr) (type : Ty)
  | ctor (pos : Pos) (c : Constructor)
  | cases (pos : Pos) (scrutinee : Expr) (alts : List Alt)
  /-- A value that has been computed already. -/
  | value (v : Value)
  /-- An expression that is evaluated under an environment of its own. -/
  | within (env : Env) (expr : Expr)
  /-- A `letIn` whose bound expression is being evaluated; its name refers to a knot. -/
  | tying (name : String) (knot : Nat) (bound body : Expr)
  /-- A form that the language does not know, with the text that shows it, if it has one. -/
  | custom (form : String) (text : Option String)
  /-- A form that the language does not know and that is shown as another expression. -/
  | wrapped (form : String) (inner : Expr)

/-- One alternative of a case expression. -/
inductive Alt where
  | mk (pos : Pos) (pattern : Pattern) (body : Expr)

inductive Value where
  /-- No value where one is expected. -/
  | absent
  | int (n : Int64)
  | bool (b : Bool)
  /-- A function with the environment in which it was made; the label tells apart functions that
  were made at different times. -/
  | closure (label : Nat) (param : String) (body : Expr) (env : Env)
  /-- A constructor applied to some fields. -/
  | data (c : Constructor) (fields : List Value)

/-- An environment: bindings of names, the latest one outermost. A name is bound to a value or to
a knot, whose value is kept in a store. -/
inductive Env where
  | empty
  | bind (env : Env) (name : String) (v : Value)
  | bindKnot (env : Env) (name : String) (knot : Nat)

end

instance : Inhabited Expr := ⟨.missing⟩
instance : Inhabited Value := ⟨.absent⟩
instance : Inhabited Env := ⟨.empty⟩
instance : Inhabited Alt := ⟨.mk .unknown .missing .missing⟩

namespace Alt

def pos : Alt → Pos
  | mk p _ _ => p

def pattern : Alt → Pattern
  | mk _ p _ => p

def body : Alt → Expr
  | mk _ _ e => e

end Alt

namespace Expr

/-- The place of an expression; the forms that are not source text have none. -/
def pos : Expr → Pos
  | var p _ | int p _ | bool p _ | binary p _ _ _ | cond p _ _ _ | fn p _ _ | app p _ _
  | letIn p _ _ _ | annot p _ _ | ctor p _ | cases p _ _ => p
  | missing | value _ | within _ _ | tying _ _ _ _ | custom _ _ | wrapped _ _ => .unknown

/-- The value that an expression already is. -/
def value? : Expr → Option Value
  | value v => some v
  | _ => none

def isMissing : Expr → Bool
  | missing => true
  | _ => false

end Expr

/-! ## Programs -/

structure Import where
  /-- The bytes between the quotes, which need not be those of a text. -/
  path : List UInt8
  pos : Pos
deriving DecidableEq, Repr, Inhabited

structure DataDecl where
  name : String
  ctors : List Constructor
  pos : Pos
deriving DecidableEq, Repr, Inhabited

/-- A source file. The body of a file that only declares data is `missing`. -/
structure Program where
  imports : List Import
  data : List DataDecl
  body : Expr
deriving Inhabited

namespace Program

/-- A program that is only an expression. -/
def ofExpr (e : Expr) : Program := ⟨[], [], e⟩

/-- The place where a program begins. -/
def pos (p : Program) : Pos :=
  match p.imports, p.data with
  | i :: _, _ => i.pos
  | [], d :: _ => d.pos
  | [], [] => p.body.pos

/-- The constructors that a program declares, in order. -/
def ctors (p : Program) : List Constructor := p.data.flatMap (·.ctors)

end Program

end FunLang
