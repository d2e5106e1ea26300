import FunLang.Syntax.Surface
import FunLang.Text.Quoted

set_option autoImplicit false

/-!
# Layout

The canonical source text of patterns, expressions and programs. An expression is written on one
line, with as few parentheses as its structure allows: each place of an expression has a level,
and whatever binds weaker than its place is put in parentheses.

In a program a chain of `let`s stands one to a line, and so do the alternatives of a `case` at its end.
-/

namespace FunLang.Layout

/-! ## Levels -/

/-- The whole expression, or the inside of parentheses: anything fits. -/
def top : Nat := 0

/-- An operand of a comparison on the left; also the body of an alternative before the last. -/
def comparison : Nat := 1

def additive : Nat := 2

def multiplicative : Nat := 3

/-- An application, which is tighter than every operator. -/
def application : Nat := 4

/-- The function or an argument of an application. -/
def atomic : Nat := 5

/-- The level at which an operator stands. -/
def level : BinOp → Nat
  | .lt | .gt | .le | .ge | .unknown => comparison
  | .add | .sub => additive
  | .mul => multiplicative

def parenIf (b : Bool) (s : String) : String := if b then "(" ++ s ++ ")" else s

def bool (b : Bool) : String := if b then "true" else "false"

/-- An integer; a negative one is in parentheses where it would be read as a difference. -/
def int (tight : Bool) (n : Int64) : String := parenIf (tight && n < 0) (toString n.toInt)

/-! ## Patterns -/

mutual

/-- A pattern; `nested` marks an argument of a constructor. -/
def patternAt (nested : Bool) : Pattern → String
  | .missing => "<<nil>>"
  | .int _ n => int nested n
  | .bool _ b => bool b
  | .var _ x => x
  | .ctor _ c [] => c.name
  | .ctor _ c (p :: ps) => parenIf nested (c.name ++ patternArgs (p :: ps))

def patternArgs : List Pattern → String
  | [] => ""
  | p :: ps => " " ++ patternAt true p ++ patternArgs ps

end

/-- The source text of a pattern. -/
def pattern (p : Pattern) : String := patternAt false p

/-! ## Expressions -/

mutual

/-- A source expression at a place of the given level. -/
def exprAt (place : Nat) : Expr → String
  | .missing => "<nil>"
  | .var _ x => x
  | .int _ n => int (application ≤ place) n
  | .bool _ b => bool b
  | .ctor _ c => c.name
  | .binary _ op l r =>
    parenIf (level op < place)
      (exprAt (level op) l ++ " " ++ op.symbol ++ " " ++ exprAt (level op + 1) r)
  | .app _ f [] => exprAt place f
  | .app _ f (a :: as) =>
    parenIf (application < place) (exprAt atomic f ++ " " ++ exprAt atomic a ++ args as)
  | .annot _ e t => "(" ++ exprAt top e ++ " : " ++ t.render ++ ")"
  | .fn _ x b => parenIf (top < place) ("\\" ++ x ++ " -> " ++ exprAt top b)
  | .letIn _ x b e =>
    parenIf (top < place) ("let " ++ x ++ " = " ++ exprAt top b ++ " in " ++ exprAt top e)
  | .cond _ c t e =>
    parenIf (top < place)
      ("if " ++ exprAt top c ++ " then " ++ exprAt top t ++ " else " ++ exprAt top e)
  | .cases _ s alts => parenIf (top < place) ("case " ++ exprAt top s ++ " of" ++ alternatives alts)
  | .custom _ (some text) => parenIf (application ≤ place) text
  | .custom form none => "<" ++ form ++ ">"
  | .within _ e | .wrapped _ e => exprAt place e
  | .value _ | .tying .. => ""

def args : List Expr → String
  | [] => ""
  | e :: es => " " ++ exprAt atomic e ++ args es

/-- The alternatives of a `case`. Only the body of the last one may extend to the right; any other
would take the alternatives after it. -/
def alternatives : List Alt → String
  | [] => ""
  | .mk _ p e :: rest =>
    " | " ++ pattern p ++ " -> " ++ exprAt (if rest.isEmpty then top else comparison) e
      ++ alternatives rest

end

/-- The source text of an expression, on one line. -/
def expr (e : Expr) : String := exprAt top e.surface

/-! ## Programs -/

/-- The lines of an alternative list, one to a line. -/
def alternativeLines : List Alt → String
  | [] => ""
  | .mk _ p e :: rest =>
    "  | " ++ pattern p ++ " -> " ++ exprAt (if rest.isEmpty then top else comparison) e.surface ++ "\n"
      ++ alternativeLines rest

/-- The lines of the expression at the end of a program. -/
def body : Expr → String
  | .letIn _ x b e => "let " ++ x ++ " = " ++ expr b ++ " in\n" ++ body e
  | .cases _ s alts => "case " ++ expr s ++ " of\n" ++ alternativeLines alts
  | e => expr e ++ "\n"

/-- A constructor as it is declared. -/
def constructor (c : Constructor) : String :=
  if c.fields.isEmpty then c.name else c.name ++ " " ++ Ty.renderFields c.fields

def dataDecl (d : DataDecl) : String :=
  "data " ++ d.name ++ " = " ++ " | ".intercalate (d.ctors.map constructor) ++ ";\n"

/-- An import, in whose path the characters of `shown` are printable. -/
def importDecl (shown : Char → Bool) (i : Import) : String :=
  "import " ++ Text.quoteBytes shown i.path ++ ";\n"

/-- The source text of a program where the characters of `shown` are printable: imports, data
declarations and body, with a blank line between. -/
def programWith (shown : Char → Bool) (p : Program) : String :=
  let imports := String.join (p.imports.map (importDecl shown))
  let data := String.join (p.data.map dataDecl)
  let rest := if p.body.isMissing then "" else body p.body
  "\n".intercalate ([imports, data, rest].filter (!·.isEmpty))

/-- The source text of a program. -/
def program (p : Program) : String := programWith Text.isPrintable p

end FunLang.Layout
