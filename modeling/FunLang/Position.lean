set_option autoImplicit false

/-!
# Positions

A place in a source text: a line and a column, both counted from one. Columns count bytes. The
position `0:0` stands for a place that is not known.
-/

namespace FunLang

structure Pos where
  line : Nat
  column : Nat
deriving DecidableEq, Repr, Inhabited

namespace Pos

/-- The place of something that has none. -/
def unknown : Pos := ⟨0, 0⟩

/-- The first byte of a text. -/
def start : Pos := ⟨1, 1⟩

/-- The place `n` columns further on the same line. -/
def right (p : Pos) (n : Nat) : Pos := ⟨p.line, p.column + n⟩

/-- The first column of the next line. -/
def nextLine (p : Pos) : Pos := ⟨p.line + 1, 1⟩

end Pos

end FunLang
