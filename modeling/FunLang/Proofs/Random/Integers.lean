import FunLang.Random.Integers
import FunLang.Proofs.Random.Draws

set_option autoImplicit false

/-!
# Sample integers lie in their range

A sample has two parts. The first one holds numbers at the edges of the range, each one once: the bounds
are always among them, and zero and one are if the range has them. The second one holds as many drawn
numbers as were asked for. Nothing lies outside of the range (`isSample_edges_draws`), although `lo + 1`,
`hi - 1` and the number of integers in the range wrap around if a bound is an extreme one.
-/

namespace FunLang.Random

variable {lo hi x y : Int64} {xs ys : List Int64}

/-! ## Numbers at the edges -/

/-- What one addition does: the number is there afterwards if it lies between the bounds. -/
theorem mem_addWithin :
    y ∈ addWithin lo hi xs x ↔ y ∈ xs ∨ y = x ∧ lo ≤ y ∧ y ≤ hi := by
  unfold addWithin
  split
  case isTrue h =>
    rw [List.mem_append, List.mem_singleton]
    constructor
    · rintro (hy | rfl)
      · exact .inl hy
      · exact .inr ⟨rfl, h.1, h.2.1⟩
    · rintro (hy | ⟨rfl, -⟩)
      · exact .inl hy
      · exact .inr rfl
  case isFalse h =>
    constructor
    · exact .inl
    · rintro (hy | ⟨rfl, hlo, hhi⟩)
      · exact hy
      · -- between the bounds, so it was not added because it was there
        by_contra hnot
        exact h ⟨hlo, hhi, hnot⟩

theorem nodup_addWithin (h : xs.Nodup) : (addWithin lo hi xs x).Nodup := by
  unfold addWithin
  split
  case isTrue hx =>
    rw [List.nodup_append]
    refine ⟨h, List.nodup_singleton x, ?_⟩
    intro a ha b hb hab
    rw [List.mem_singleton] at hb
    exact hx.2.2 (hb ▸ hab ▸ ha)
  case isFalse => exact h

/-- What all the additions do, one after the other. -/
theorem mem_foldl_addWithin :
    y ∈ ys.foldl (addWithin lo hi) xs ↔ y ∈ xs ∨ y ∈ ys ∧ lo ≤ y ∧ y ≤ hi := by
  induction ys generalizing xs with
  | nil => simp
  | cons x ys ih =>
      rw [List.foldl_cons, ih, mem_addWithin, List.mem_cons]
      tauto

theorem nodup_foldl_addWithin (h : xs.Nodup) : (ys.foldl (addWithin lo hi) xs).Nodup := by
  induction ys generalizing xs with
  | nil => exact h
  | cons x ys ih => exact ih (nodup_addWithin h)

/-- The numbers at the edges are the candidates that lie between the bounds. A candidate that wrapped
around is no exception: it counts as the number that it is. -/
theorem mem_edges : x ∈ edges lo hi ↔
    (x = lo ∨ x = lo + 1 ∨ x = 0 ∨ x = 1 ∨ 1 < hi ∧ x = hi - 1 ∨ x = hi) ∧ lo ≤ x ∧ x ≤ hi := by
  unfold edges
  rw [mem_foldl_addWithin]
  by_cases h : 1 < hi <;> simp [h]

theorem nodup_edges (lo hi : Int64) : (edges lo hi).Nodup := nodup_foldl_addWithin List.nodup_nil

/-! ## Drawn numbers -/

theorem length_draws (lo hi : Int64) (count : Nat) (word : UInt64) :
    (draws lo hi count word).length = count := by
  induction count generalizing word with
  | zero => rfl
  | succ count ih => rw [draws, List.length_cons, ih]

theorem mem_draws (h : lo ≤ hi) {count : Nat} {word : UInt64} (hx : x ∈ draws lo hi count word) :
    lo ≤ x ∧ x ≤ hi := by
  induction count generalizing word with
  | zero => exact absurd hx List.not_mem_nil
  | succ count ih =>
      rw [draws] at hx
      obtain rfl | hx := List.mem_cons.mp hx
      · exact between_mem h _
      · exact ih hx

/-! ## Samples -/

/-- Numbers at the edges of a range, and so many others of the range. -/
structure IsSample (lo hi : Int64) (count : Nat) (first rest : List Int64) : Prop where
  nodup : first.Nodup
  within : ∀ x ∈ first ++ rest, lo ≤ x ∧ x ≤ hi
  lower : lo ∈ first
  upper : hi ∈ first
  zero : lo ≤ 0 → 0 ≤ hi → 0 ∈ first
  one : lo ≤ 1 → 1 ≤ hi → 1 ∈ first
  length : rest.length = count

theorem isSample_edges_draws (h : lo ≤ hi) (count : Nat) (word : UInt64) :
    IsSample lo hi count (edges lo hi) (draws lo hi count word) where
  nodup := nodup_edges lo hi
  within x hx := by
    obtain hx | hx := List.mem_append.mp hx
    · exact (mem_edges.mp hx).2
    · exact mem_draws h hx
  lower := mem_edges.mpr ⟨by simp, Int64.le_refl lo, h⟩
  upper := mem_edges.mpr ⟨by simp, h, Int64.le_refl hi⟩
  zero hlo hhi := mem_edges.mpr ⟨by simp, hlo, hhi⟩
  one hlo hhi := mem_edges.mpr ⟨by simp, hlo, hhi⟩
  length := length_draws lo hi count word

/-- The words choose exactly the numbers between two bounds. Sample integers are a sample of their
range, whose upper bound is at least the lower one. -/
theorem integers_sampled :
    (∀ lo hi : Int64, lo ≤ hi → ∀ x, (∃ word, between lo hi word = x) ↔ lo ≤ x ∧ x ≤ hi) ∧
    ∀ (lo hi : Int64) (count : Nat) (seed : UInt64), ∃ first rest,
      integers lo hi count seed = first ++ rest ∧ IsSample lo (max lo hi) count first rest := by
  constructor
  · intro lo hi h x
    constructor
    · rintro ⟨word, rfl⟩
      exact between_mem h word
    · rintro ⟨hlo, hhi⟩
      exact exists_between_eq hlo hhi
  · intro lo hi count seed
    exact ⟨_, _, rfl, isSample_edges_draws (left_le_max lo hi) count _⟩

/-- Between the extreme bounds there are all the numbers. -/
theorem integers_sampled_extremes : Int64.minValue ≤ Int64.maxValue ∧
    ∀ x, (∃ word, between Int64.minValue Int64.maxValue word = x) ↔
      Int64.minValue ≤ x ∧ x ≤ Int64.maxValue :=
  ⟨by decide, integers_sampled.1 _ _ (by decide)⟩

end FunLang.Random
