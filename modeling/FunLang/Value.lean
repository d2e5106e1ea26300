import FunLang.Syntax

set_option autoImplicit false

/-!
# Values

How values are shown, compared and applied.
-/

namespace FunLang.Value

mutual

/-- A value as it is shown: the source text that produces it, or a mark for a function. -/
def render : Value → String
  | .absent => "%!s(<nil>)"
  | .int n => toString n.toInt
  | .bool b => if b then "true" else "false"
  | .closure .. => "<function>"
  | .data c fields => c.name ++ renderFields fields

/-- The fields of a constructed value, each after a space. A negative number and a constructed value
with fields of its own are in parentheses. -/
def renderFields : List Value → String
  | [] => ""
  | .int n :: vs =>
    (if n < 0 then " (" ++ toString n.toInt ++ ")" else " " ++ toString n.toInt) ++ renderFields vs
  | .data c (f :: fs) :: vs => " (" ++ c.name ++ renderFields (f :: fs) ++ ")" ++ renderFields vs
  | v :: vs => " " ++ v.render ++ renderFields vs

end

/-- Whether a value stands in parentheses where it is a field. -/
def isCompound : Value → Bool
  | .int n => n < 0
  | .data _ (_ :: _) => true
  | _ => false

theorem renderFields_cons (v : Value) (vs : List Value) :
    renderFields (v :: vs)
      = (if v.isCompound then " (" ++ v.render ++ ")" else " " ++ v.render) ++ renderFields vs := by
  cases v with
  | int n => simp [renderFields, isCompound, render]
  | data c fields =>
    cases fields with
    | nil => simp [renderFields, isCompound]
    | cons f fs => simp [renderFields, isCompound, render, String.append_assoc]
  | _ => simp [renderFields, isCompound]

/-- The sort of a value for messages: its type, or the constructor if that belongs to no type. -/
def kind : Value → String
  | .absent => "unknown"
  | .int _ => "Int"
  | .bool _ => "Bool"
  | .closure .. => "function"
  | .data c _ => if c.type.isEmpty then c.name else c.type

/-- A constructed value with one more field; nothing else takes fields. -/
def addField? : Value → Value → Option Value
  | .data c fields, v => some (.data c (fields ++ [v]))
  | _, _ => none

/-- Whether a constructed value has fewer fields than its constructor declares. -/
def isPartial : Value → Bool
  | .data c fields => fields.length < c.arity
  | _ => false

mutual

/-- Equality of values. A function is equal only to itself, constructors compare by name, and an
absent value is equal to nothing. -/
def equal : Value → Value → Bool
  | .int a, .int b => a == b
  | .bool a, .bool b => a == b
  | .closure a _ _ _, .closure b _ _ _ => a == b
  | .data c fs, .data d gs => c.same d && equalAll fs gs
  | _, _ => false

def equalAll : List Value → List Value → Bool
  | [], [] => true
  | v :: vs, w :: ws => equal v w && equalAll vs ws
  | _, _ => false

end

end FunLang.Value
