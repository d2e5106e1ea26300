set_option autoImplicit false

/-!
# Sets of names

A set of names as the list of its members in ascending order, each one once.
-/

namespace FunLang.Names

/-- Adds a name to a set. -/
def insert (x : String) : List String → List String
  | [] => [x]
  | y :: ys => if x < y then x :: y :: ys else if x = y then y :: ys else y :: insert x ys

/-- The set of the names in a list. -/
def ofList (xs : List String) : List String := xs.foldr insert []

theorem mem_insert {x y : String} {ys : List String} : y ∈ insert x ys ↔ y = x ∨ y ∈ ys := by
  induction ys with
  | nil => simp [insert]
  | cons z zs ih =>
    unfold insert
    split
    · simp
    · split
      · next h => subst h; simp
      · simp only [List.mem_cons, ih]
        constructor
        · rintro (h | h | h) <;> simp [h]
        · rintro (h | h | h) <;> simp [h]

theorem mem_ofList {y : String} {xs : List String} : y ∈ ofList xs ↔ y ∈ xs := by
  induction xs with
  | nil => simp [ofList]
  | cons x xs ih =>
    have h : ofList (x :: xs) = insert x (ofList xs) := rfl
    rw [h, mem_insert, ih, List.mem_cons]

end FunLang.Names
