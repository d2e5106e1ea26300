set_option autoImplicit false

/-!
# Random words

A sequence of 64-bit words in which each word determines the next one, and the choices that are
made with it.
-/

namespace FunLang.Random

/-- The word after a word. -/
def shuffle (x : UInt64) : UInt64 :=
  let x := x ^^^ (x <<< 13)
  let x := x ^^^ (x >>> 7)
  x ^^^ (x <<< 17)

/-- The seed that stands in for zero. -/
def defaultSeed : UInt64 := 0x517cc1b727220a95

/-- A seed other than zero. -/
def seedOf (seed : UInt64) : UInt64 := if seed = 0 then defaultSeed else seed

/-- The word from which a generator starts. Multiplication by an odd number spreads small seeds over
all words. -/
def spread (seed : UInt64) : UInt64 := seedOf seed * 0x9e3779b97f4a7c15

/-- A number between two bounds, both included, as a word chooses it. -/
def between (lo hi : Int64) (word : UInt64) : Int64 :=
  if hi ≤ lo then lo
  else
    let width := (hi - lo).toUInt64 + 1
    -- a width of zero is that of all numbers
    if width = 0 then word.toInt64 else lo + (word % width).toInt64

/-! ## Choices -/

/-- A computation that draws words. The state is the latest word. -/
abbrev Gen := StateM UInt64

/-- Draws a word. -/
def next : Gen UInt64 := do
  let x := shuffle (← get)
  set x
  return x

/-- Draws a number below `n`. Where there is no choice, nothing is drawn. -/
def below (n : Nat) : Gen Nat := do
  if n ≤ 1 then return 0
  else return ((← next) % n.toUInt64).toNat

/-- Draws true in so many cases of a hundred. -/
def chance (percent : Nat) : Gen Bool := return (← below 100) < percent

/-- Draws a member of a list that has a first member. -/
def choose {α : Type} (first : α) (rest : List α) : Gen α :=
  return (first :: rest).getD (← below (rest.length + 1)) first

/-- Draws a number between two bounds. -/
def number (lo hi : Int64) : Gen Int64 := return between lo hi (← next)

end FunLang.Random
