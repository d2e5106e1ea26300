import FunLang.Random.Words

set_option autoImplicit false

/-!
# Sample integers

Integers to try a function on: those at the bounds of a range and around zero, and then some that
are drawn from the range.
-/

namespace FunLang.Random

/-- Adds a number to a list if it lies between the bounds and is not there yet. -/
def addWithin (lo hi : Int64) (xs : List Int64) (x : Int64) : List Int64 :=
  if lo ≤ x ∧ x ≤ hi ∧ x ∉ xs then xs ++ [x] else xs

/-- The numbers at the bounds and around zero, each one once. -/
def edges (lo hi : Int64) : List Int64 :=
  ([lo, lo + 1, 0, 1] ++ (if 1 < hi then [hi - 1] else []) ++ [hi]).foldl (addWithin lo hi) []

/-- So many numbers that the words after a word choose. -/
def draws (lo hi : Int64) : (count : Nat) → (word : UInt64) → List Int64
  | 0, _ => []
  | count + 1, word => between lo hi (shuffle word) :: draws lo hi count (shuffle word)

/-- The numbers at the edges of a range and `count` random ones from it. A range whose bounds are
inverted has only its lower bound. -/
def integers (lo hi : Int64) (count : Nat) (seed : UInt64) : List Int64 :=
  let hi := max lo hi
  edges lo hi ++ draws lo hi count (seedOf seed)

end FunLang.Random
