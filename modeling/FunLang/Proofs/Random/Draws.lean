import FunLang.Random.Words
import Mathlib.Tactic

set_option autoImplicit false

/-!
# What is drawn

Whatever word a generator starts from, what it draws has a property: `Always P g`. There is one rule for
each way in which generators are put together and one for each of the basic draws. A number that is
drawn between two bounds lies between them (`between_mem`), and every number between them is drawn for
some word (`exists_between_eq`), also where the distance of the bounds is too large for a 64-bit integer
with a sign.
-/

namespace FunLang.Random

/-! ## Numbers between bounds -/

theorem toNat_toUInt64 (x : Int64) : (x.toUInt64.toNat : Int) = x.toInt % 2 ^ 64 := by
  have hlt : (x.toUInt64.toNat : Int) < 2 ^ 64 := by exact_mod_cast x.toUInt64.toNat_lt
  have hint : x.toInt = (x.toUInt64.toNat : Int).bmod (2 ^ 64) := BitVec.toInt_eq_toNat_bmod x.toBitVec
  have hmod : x.toInt % 2 ^ 64 = (x.toUInt64.toNat : Int) % 2 ^ 64 := by
    rw [hint]
    exact Int.bmod_emod
  rw [hmod, Int.emod_eq_of_lt (Int.natCast_nonneg _) hlt]

/-- A distance as a word, which has no sign. -/
theorem toNat_sub (a b : Int64) :
    ((a - b).toUInt64.toNat : Int) = (a.toInt - b.toInt) % 2 ^ 64 := by
  rw [toNat_toUInt64, Int64.toInt_sub]
  exact Int.bmod_emod

/-- The number of integers between two bounds. As a word it is zero if these are all that there are. -/
theorem toNat_width (lo hi : Int64) :
    (((hi - lo).toUInt64 + 1).toNat : Int) = (hi.toInt - lo.toInt + 1) % 2 ^ 64 := by
  rw [UInt64.toNat_add, Int.natCast_mod, Int.natCast_add, toNat_sub]
  exact Int.emod_add_emod _ _ _

/-- Going on from the lower bound by less than the distance to the upper one nothing wraps around. -/
theorem toInt_add_toInt64 {lo : Int64} {word : UInt64} {n : Int} (hn : lo.toInt + word.toNat ≤ n)
    (hmax : n < 2 ^ 63) : (lo + word.toInt64).toInt = lo.toInt + word.toNat := by
  have hlo := lo.le_toInt
  have hword : word.toInt64.toInt = (word.toNat : Int).bmod (2 ^ 64) := BitVec.toInt_eq_toNat_bmod _
  rw [Int64.toInt_add, hword, Int.add_bmod_bmod]
  apply Int.bmod_eq_of_le <;> omega

/-- A number that is drawn between two bounds lies between them. -/
theorem between_mem {lo hi : Int64} (h : lo ≤ hi) (word : UInt64) :
    lo ≤ between lo hi word ∧ between lo hi word ≤ hi := by
  have hle := Int64.le_iff_toInt_le.mp h
  have hlo := lo.le_toInt
  have hhi := hi.toInt_lt
  have hwidth := toNat_width lo hi
  unfold between
  dsimp only
  generalize (hi - lo).toUInt64 + 1 = width at hwidth
  simp only [Int64.le_iff_toInt_le]
  split_ifs with hlt hzero
  · exact ⟨le_refl _, hle⟩
  · -- all integers lie between the bounds
    have hmin := word.toInt64.le_toInt
    have hmax := word.toInt64.toInt_lt
    have hnat : width.toNat = 0 := by simp [hzero]
    omega
  · have hpos : 0 < width.toNat := Nat.pos_of_ne_zero fun h0 => hzero (UInt64.toNat_inj.mp h0)
    have hmod : (word % width).toNat < width.toNat := by
      rw [UInt64.toNat_mod]
      exact Nat.mod_lt _ hpos
    have hsum : lo.toInt + (word % width).toNat ≤ hi.toInt := by omega
    rw [toInt_add_toInt64 hsum hhi]
    omega

/-- Every number between the bounds is drawn for some word. -/
theorem exists_between_eq {lo hi x : Int64} (hlo : lo ≤ x) (hhi : x ≤ hi) :
    ∃ word, between lo hi word = x := by
  unfold between
  dsimp only
  by_cases hle : hi ≤ lo
  · refine ⟨0, ?_⟩
    rw [if_pos hle]
    exact Int64.le_antisymm hlo (Int64.le_trans hhi hle)
  · simp only [if_neg hle]
    have hwidth := toNat_width lo hi
    generalize (hi - lo).toUInt64 + 1 = width at hwidth
    by_cases hzero : width = 0
    · exact ⟨x.toUInt64, by rw [if_pos hzero, Int64.toInt64_toUInt64]⟩
    · -- the word is how far the number is above the lower bound
      have hlox := Int64.le_iff_toInt_le.mp hlo
      have hxhi := Int64.le_iff_toInt_le.mp hhi
      have hmin := lo.le_toInt
      have hmax := hi.toInt_lt
      have hdist : ((x - lo).toUInt64.toNat : Int) = x.toInt - lo.toInt := by
        rw [toNat_sub]
        exact Int.emod_eq_of_lt (by omega) (by omega)
      have hpos : width.toNat ≠ 0 := fun h0 => hzero (UInt64.toNat_inj.mp h0)
      have hlt : (x - lo).toUInt64 < width := by
        rw [UInt64.lt_iff_toNat_lt]
        omega
      refine ⟨(x - lo).toUInt64, ?_⟩
      rw [if_neg hzero, UInt64.mod_eq_of_lt hlt, ← Int64.toInt_inj, toInt_add_toInt64 (le_refl _) (by omega)]
      omega

theorem left_le_max (a b : Int64) : a ≤ max a b := by
  show a ≤ if a ≤ b then b else a
  split
  · assumption
  · exact Int64.le_refl a

/-! ## Generators -/

variable {α β : Type} {P Q : α → Prop}

/-- Whatever word the generator starts from, what it draws has the property. -/
def Always (P : α → Prop) (g : Gen α) : Prop := ∀ word, P (g.run word).1

theorem Always.mono {g : Gen α} (hg : Always P g) (h : ∀ a, P a → Q a) : Always Q g := fun word =>
  h _ (hg word)

theorem always_pure {a : α} (h : P a) : Always P (pure a : Gen α) := fun _ => h

theorem Always.bind {g : Gen α} {f : α → Gen β} {R : β → Prop} (hg : Always P g)
    (hf : ∀ a, P a → Always R (f a)) : Always R (g >>= f) := fun word => hf _ (hg word) _

/-- What the first draw gives does not matter. -/
theorem always_bind {g : Gen α} {f : α → Gen β} {R : β → Prop} (hf : ∀ a, Always R (f a)) :
    Always R (g >>= f) := fun _ => hf _ _

theorem always_choose (first : α) (rest : List α) : Always (· ∈ first :: rest) (choose first rest) := by
  refine always_bind fun n => always_pure ?_
  rw [List.getD_eq_getElem?_getD]
  cases h : (first :: rest)[n]? with
  | none => exact List.mem_cons_self
  | some a => exact List.mem_of_getElem? h

theorem always_number {lo hi : Int64} (h : lo ≤ hi) :
    Always (fun n => lo ≤ n ∧ n ≤ hi) (number lo hi) :=
  always_bind fun word => always_pure (between_mem h word)

/-- A list that is drawn member by member. -/
theorem always_mapM {γ : Type} {f : γ → Gen α} (hf : ∀ x, Always P (f x)) (xs : List γ) :
    Always (fun l => l.length = xs.length ∧ ∀ a ∈ l, P a) (xs.mapM f) := by
  induction xs with
  | nil => exact always_pure ⟨rfl, nofun⟩
  | cons x xs ih =>
      rw [List.mapM_cons]
      refine (hf x).bind fun a ha => ih.bind fun l hl => always_pure ⟨?_, ?_⟩
      · simp [hl.1]
      · exact List.forall_mem_cons.mpr ⟨ha, hl.2⟩

end FunLang.Random
