import FunLang.Syntax.Surface

set_option autoImplicit false

/-!
# Outlines

A tree as an indented list of its nodes, one to a line. Something that is missing has no line.
-/

namespace FunLang.Outline

/-- One line of an outline, `depth` levels deep. -/
def line (depth : Nat) (text : String) : String :=
  String.join (List.replicate depth "  ") ++ text ++ "\n"

mutual

def pattern (depth : Nat) : Pattern → String
  | .missing => ""
  | .int _ n => line depth s!"IntPattern: {n.toInt}"
  | .bool _ b => line depth s!"BoolPattern: {b}"
  | .var _ x => line depth s!"VarPattern: {x}"
  | .ctor _ c args => line depth s!"ConstructorPattern: {c.name}" ++ patterns (depth + 1) args

def patterns (depth : Nat) : List Pattern → String
  | [] => ""
  | p :: ps => pattern depth p ++ patterns depth ps

end

mutual

/-- The outline of a source expression. -/
def source (depth : Nat) : Expr → String
  | .missing => ""
  | .var _ x => line depth s!"Var: {x}"
  | .int _ n => line depth s!"Int: {n.toInt}"
  | .bool _ b => line depth s!"Bool: {b}"
  | .binary _ op l r =>
    line depth s!"BinaryExpr: {op.symbol}" ++ source (depth + 1) l ++ source (depth + 1) r
  | .cond _ c t e =>
    line depth "IfExpr" ++ line (depth + 1) "Cond:" ++ source (depth + 2) c
      ++ line (depth + 1) "Then:" ++ source (depth + 2) t
      ++ line (depth + 1) "Else:" ++ source (depth + 2) e
  | .fn _ x b => line depth s!"Fun: {x}" ++ source (depth + 1) b
  | .app _ f [] =>
    line depth "App" ++ line (depth + 1) "Func:" ++ source (depth + 2) f
      ++ line (depth + 1) "Args: none"
  | .app _ f (a :: as) =>
    line depth "App" ++ line (depth + 1) "Func:" ++ source (depth + 2) f
      ++ line (depth + 1) "Args:" ++ source (depth + 2) a ++ sources (depth + 2) as
  | .letIn _ x b e =>
    line depth s!"Let: {x}" ++ line (depth + 1) "Bound:" ++ source (depth + 2) b
      ++ line (depth + 1) "Body:" ++ source (depth + 2) e
  | .annot _ e t => line depth s!"Annot: {t.render}" ++ source (depth + 1) e
  | .ctor _ c => line depth s!"Constructor: {c.name}"
  | .cases _ s [] => line depth "CaseExpr" ++ line (depth + 1) "Scrutinee:" ++ source (depth + 2) s
  | .cases _ s (.mk _ p e :: as) =>
    line depth "CaseExpr" ++ line (depth + 1) "Scrutinee:" ++ source (depth + 2) s
      ++ line (depth + 1) "Alts:" ++ line (depth + 2) "Alt" ++ line (depth + 3) "Pattern:"
      ++ pattern (depth + 4) p ++ line (depth + 3) "Body:" ++ source (depth + 4) e
      ++ alternatives (depth + 2) as
  | .custom _ (some text) => line depth text
  | .custom form none => line depth s!"<unknown node {form}>"
  | .within _ e | .wrapped _ e => source depth e
  | .value _ | .tying .. => ""

def sources (depth : Nat) : List Expr → String
  | [] => ""
  | e :: es => source depth e ++ sources depth es

def alternatives (depth : Nat) : List Alt → String
  | [] => ""
  | .mk _ p e :: as =>
    line depth "Alt" ++ line (depth + 1) "Pattern:" ++ pattern (depth + 2) p
      ++ line (depth + 1) "Body:" ++ source (depth + 2) e ++ alternatives depth as

end

/-- The outline of an expression. -/
def expr (depth : Nat) (e : Expr) : String := source depth e.surface

def constructor (depth : Nat) (c : Constructor) : String :=
  if c.fields.isEmpty then line depth s!"{c.name} (nullary)"
  else line depth s!"{c.name} {Ty.renderFields c.fields}"

def dataDecl (depth : Nat) (d : DataDecl) : String :=
  line depth s!"Data: {d.name}" ++ String.join (d.ctors.map (constructor (depth + 1)))

def program (p : Program) : String :=
  line 0 "Program"
    ++ String.join (p.imports.map fun i => line 1 s!"Import: {Text.decode i.path}")
    ++ String.join (p.data.map (dataDecl 1))
    ++ if p.body.isMissing then "" else line 1 "Body:" ++ expr 2 p.body

end FunLang.Outline
