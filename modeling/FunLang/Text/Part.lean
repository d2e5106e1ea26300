set_option autoImplicit false

/-!
# Parts of a text

Whether a text begins or ends with another one, or holds it somewhere.
-/

namespace FunLang.Text

/-- Whether some characters stand in a row in others. -/
def occurs (part : List Char) : List Char → Bool
  | [] => part.isEmpty
  | c :: cs => part.isPrefixOf (c :: cs) || occurs part cs

/-- Whether a text stands somewhere in another one. -/
def occursIn (part s : String) : Bool := occurs part.toList s.toList

/-- Whether a text begins with another one. -/
def beginsWith (start s : String) : Bool := start.toList.isPrefixOf s.toList

/-- Whether a text ends with another one. -/
def endsWith (tail s : String) : Bool := tail.toList.isSuffixOf s.toList

end FunLang.Text
