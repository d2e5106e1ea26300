import FunLang.Diagnostic
import FunLang.Syntax
import FunLang.Text.LetterCase

set_option autoImplicit false

/-!
# Naming

Variables start with a lower-case letter or an underscore. Types and constructors start with an
upper-case letter and hold no underscore.
-/

namespace FunLang.Lint

/-- Whether a name is one for a variable. -/
def isCamelCase (name : String) : Bool :=
  match name.toList with
  | [] => false
  | c :: _ => Text.isLower c || c == '_'

/-- Whether a name is one for a type or a constructor. -/
def isPascalCase (name : String) : Bool :=
  match name.toList with
  | [] => false
  | c :: cs => Text.isUpper c && !(c :: cs).contains '_'

/-- Whether a name says that it is not meant to be used. -/
def isHidden (name : String) : Bool := name.toList.head? == some '_'

/-- The warnings about the names of a data declaration. -/
def dataNaming (d : DataDecl) : List Diagnostic :=
  (if isPascalCase d.name then []
    else [.warning d.pos s!"data type '{d.name}' should use PascalCase naming"])
  ++ (d.ctors.filter fun c => !isPascalCase c.name).map fun c =>
    .warning c.pos s!"constructor '{c.name}' in data type '{d.name}' should use PascalCase naming"

end FunLang.Lint
