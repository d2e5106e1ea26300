import FunLang.Random.Programs
import Mathlib.Tactic

set_option autoImplicit false

/-!
# The words of a generator are never zero

Zero is the one word that is followed by itself, so a generator that came to it would draw nothing else
from then on. It never does. Each word determines the one before it (`shuffle_injective`), so only zero
leads to zero, and no seed makes a generator start from there (`spread_ne_zero`).

Whatever a generator makes, it changes its word only by drawing the next one, some number of times
(`Advances`). This has one rule for each way in which generators are put together, and for expressions it
is by induction on the depth (`advances_expr`). So what holds after any number of draws holds after any
number of programs.
-/

namespace FunLang.Random

open Function

/-! ## Shuffling -/

section Bits

variable {w k : Nat}

/-- A shift that comes to zero when it is repeated can be undone after it has been added to the word. -/
theorem xor_injective_of_iterate_eq_zero {f : BitVec w → BitVec w}
    (hxor : ∀ x y, f (x ^^^ y) = f x ^^^ f y) {n : Nat} (hzero : ∀ x, f^[n] x = 0) :
    Injective fun x => x ^^^ f x := by
  intro x y (h : x ^^^ f x = y ^^^ f y)
  -- the shift does not change the difference of the words
  have hfixed : f (x ^^^ y) = x ^^^ y := calc
    f (x ^^^ y) = f x ^^^ f y := hxor x y
    _ = x ^^^ (x ^^^ f x) ^^^ f y := by rw [← BitVec.xor_assoc, BitVec.xor_self, BitVec.zero_xor]
    _ = x ^^^ y := by rw [h, BitVec.xor_assoc, BitVec.xor_assoc, BitVec.xor_self, BitVec.xor_zero]
  have hdiff : x ^^^ y = 0 := by rw [← hzero (x ^^^ y), iterate_fixed hfixed]
  exact BitVec.xor_eq_zero_iff.mp hdiff

theorem iterate_shiftLeft (x : BitVec w) (n : Nat) : (fun y : BitVec w => y <<< k)^[n] x = x <<< (k * n) := by
  induction n with
  | zero => simp
  | succ n ih => rw [iterate_succ_apply', ih, Nat.mul_succ, BitVec.shiftLeft_add]

theorem iterate_shiftRight (x : BitVec w) (n : Nat) : (fun y : BitVec w => y >>> k)^[n] x = x >>> (k * n) := by
  induction n with
  | zero => simp
  | succ n ih => rw [iterate_succ_apply', ih, Nat.mul_succ, BitVec.shiftRight_add]

theorem xor_shiftLeft_injective (hk : 0 < k) : Injective fun x : BitVec w => x ^^^ (x <<< k) := by
  refine xor_injective_of_iterate_eq_zero (n := w) (fun x y => BitVec.shiftLeft_xor_distrib x y k) ?_
  intro x
  rw [iterate_shiftLeft]
  exact BitVec.shiftLeft_eq_zero (Nat.le_mul_of_pos_left w hk)

theorem xor_shiftRight_injective (hk : 0 < k) : Injective fun x : BitVec w => x ^^^ (x >>> k) := by
  refine xor_injective_of_iterate_eq_zero (n := w) (fun x y => BitVec.ushiftRight_xor_distrib x y k) ?_
  intro x
  rw [iterate_shiftRight]
  exact BitVec.ushiftRight_eq_zero (Nat.le_mul_of_pos_left w hk)

end Bits

theorem shuffle_injective : Injective shuffle := by
  intro x y h
  have hbits : (shuffle x).toBitVec = (shuffle y).toBitVec := congrArg UInt64.toBitVec h
  apply UInt64.toBitVec_inj.mp
  -- it is enough that the words agree after the first shift, and there after the second, and so on
  apply xor_shiftLeft_injective (k := 13) (by decide)
  apply xor_shiftRight_injective (k := 7) (by decide)
  exact xor_shiftLeft_injective (k := 17) (by decide) hbits

theorem shuffle_eq_zero_iff {word : UInt64} : shuffle word = 0 ↔ word = 0 := by
  have hzero : shuffle 0 = 0 := rfl
  constructor
  · intro h
    exact shuffle_injective (h.trans hzero.symm)
  · rintro rfl
    exact hzero

theorem iterate_shuffle_ne_zero {word : UInt64} (h : word ≠ 0) (n : Nat) : shuffle^[n] word ≠ 0 := by
  induction n with
  | zero => exact h
  | succ n ih =>
      rw [iterate_succ_apply', Ne, shuffle_eq_zero_iff]
      exact ih

/-! ## Starting -/

theorem mul_injective_of_odd {m : UInt64} (hm : Odd m.toNat) : Injective fun x : UInt64 => x * m := by
  intro x y h
  have hcoprime : (2 ^ 64).Coprime m.toNat := (Nat.coprime_two_left.mpr hm).pow_left 64
  have hmod : x.toNat * m.toNat ≡ y.toNat * m.toNat [MOD 2 ^ 64] := by
    have hnat := congrArg UInt64.toNat h
    rwa [UInt64.toNat_mul, UInt64.toNat_mul] at hnat
  have heq := Nat.ModEq.cancel_right_of_coprime hcoprime hmod
  exact UInt64.toNat_inj.mp (heq.eq_of_lt_of_lt x.toNat_lt y.toNat_lt)

theorem seedOf_ne_zero (seed : UInt64) : seedOf seed ≠ 0 := by
  unfold seedOf
  split
  · decide
  · assumption

theorem spread_ne_zero (seed : UInt64) : spread seed ≠ 0 := by
  intro h
  have hmul : seedOf seed * 0x9e3779b97f4a7c15 = 0 * 0x9e3779b97f4a7c15 := h.trans UInt64.zero_mul.symm
  exact seedOf_ne_zero seed (mul_injective_of_odd (by decide) hmul)

/-! ## Drawing -/

variable {α β : Type}

/-- The generator changes the word only by drawing, some number of times. -/
def Advances (g : Gen α) : Prop := ∀ word, ∃ n, (g.run word).2 = shuffle^[n] word

theorem advances_pure (a : α) : Advances (pure a : Gen α) := fun _ => ⟨0, rfl⟩

theorem Advances.bind {g : Gen α} {f : α → Gen β} (hg : Advances g) (hf : ∀ a, Advances (f a)) :
    Advances (g >>= f) := by
  intro word
  obtain ⟨n, hn⟩ := hg word
  obtain ⟨m, hm⟩ := hf (g.run word).1 (g.run word).2
  refine ⟨m + n, ?_⟩
  rw [iterate_add_apply, ← hn, ← hm]
  rfl

theorem Advances.bind_pure {g : Gen α} (hg : Advances g) (f : α → β) :
    Advances (g >>= fun a => pure (f a)) :=
  hg.bind fun a => advances_pure (f a)

theorem advances_ite {p : Prop} [Decidable p] {g g' : Gen α} (hg : Advances g) (hg' : Advances g') :
    Advances (if p then g else g') := by
  split
  · exact hg
  · exact hg'

theorem advances_next : Advances next := fun _ => ⟨1, rfl⟩

theorem advances_below (n : Nat) : Advances (below n) :=
  advances_ite (advances_pure _) (advances_next.bind_pure _)

theorem advances_chance (percent : Nat) : Advances (chance percent) :=
  (advances_below 100).bind_pure _

theorem advances_choose (first : α) (rest : List α) : Advances (choose first rest) :=
  (advances_below _).bind_pure _

theorem advances_number (lo hi : Int64) : Advances (number lo hi) :=
  advances_next.bind_pure _

theorem advances_mapM {f : α → Gen β} (hf : ∀ a, Advances (f a)) (as : List α) : Advances (as.mapM f) := by
  induction as with
  | nil => exact advances_pure _
  | cons a as ih =>
      rw [List.mapM_cons]
      exact (hf a).bind fun _ => ih.bind_pure _

theorem advances_times {g : Gen α} (hg : Advances g) (n : Nat) : Advances (times n g) :=
  advances_mapM (fun _ => hg) _

theorem word_times_next (n : Nat) (word : UInt64) : ((times n next).run word).2 = shuffle^[n] word := by
  induction n generalizing word with
  | zero => rfl
  | succ n ih =>
      have hstep : ((times (n + 1) next).run word).2 = ((times n next).run (shuffle word)).2 := by
        unfold times
        rw [List.replicate_succ, List.mapM_cons]
        rfl
      rw [hstep, ih, iterate_succ_apply]

/-! ## Drawing programs -/

variable (c : Constraints) (d : Nat) (scope : List String)

theorem advances_binder : Advances binder := advances_choose _ _

theorem advances_intExpr : Advances (intExpr c) := (advances_number _ _).bind_pure _

theorem advances_variableOr : Advances (variableOr c scope) := by
  have hbinder : Advances (do return Expr.var .unknown (← binder)) :=
    advances_binder.bind_pure _
  unfold variableOr
  cases scope with
  | nil => exact advances_ite (advances_intExpr c) hbinder
  | cons x xs =>
      have hbound : Advances (do return Expr.var .unknown (← choose x xs)) :=
        (advances_choose x xs).bind_pure _
      exact advances_ite hbound ((advances_chance 80).bind fun _ => advances_ite hbound hbinder)

theorem advances_leaf : Advances (leaf c scope) := by
  refine (advances_below 5).bind fun _ => ?_
  split
  · exact advances_intExpr c
  · exact advances_intExpr c
  · exact (advances_chance 50).bind_pure _
  · split
    · exact (advances_choose _ _).bind_pure _
    · exact advances_variableOr c scope
  · exact advances_variableOr c scope

theorem advances_typeOr {arrow : Gen Ty} (h : Advances arrow) : Advances (typeOr c arrow) := by
  refine (advances_below 4).bind fun _ => ?_
  split
  · exact advances_pure _
  · exact advances_pure _
  · split
    · exact (advances_choose _ _).bind_pure _
    · exact advances_pure _
  · exact h

theorem advances_type : Advances (type c d) := by
  induction d with
  | zero => exact advances_typeOr c (advances_pure _)
  | succ d ih => exact advances_typeOr c (ih.bind fun _ => ih.bind_pure _)

theorem advances_varPattern : Advances varPattern := advances_binder.bind_pure _

theorem advances_patternOr {compound : Gen Pattern} (h : Advances compound) :
    Advances (patternOr c compound) := by
  refine (advances_below 4).bind fun _ => ?_
  split
  · exact (advances_number _ _).bind_pure _
  · exact (advances_chance 50).bind_pure _
  · exact h
  · exact advances_varPattern

theorem advances_pattern : Advances (pattern c d) := by
  induction d with
  | zero => exact advances_patternOr c advances_varPattern
  | succ d ih =>
      refine advances_patternOr c ?_
      split
      · exact advances_varPattern
      · refine (advances_choose _ _).bind fun _ => ?_
        exact (advances_mapM (fun _ => ih) _).bind_pure _

section Below

variable {c d} (hexpr : ∀ scope, Advances (expr c d scope))
include hexpr

theorem advances_fn : Advances (fn c d scope) := by
  rw [fn]
  exact advances_binder.bind fun _ => (hexpr _).bind_pure _

theorem advances_construct (k : Constructor) (ks : List Constructor) :
    Advances (construct c d scope k ks) := by
  rw [construct]
  refine (advances_choose k ks).bind fun ctor => ?_
  have happlied : ∀ n, Advances (do
      if n = 0 then return Expr.ctor .unknown ctor
      else return .app .unknown (.ctor .unknown ctor) (← times n (expr c d scope))) := fun n =>
    advances_ite (advances_pure _) ((advances_times (hexpr scope) n).bind_pure _)
  exact advances_ite ((advances_pure _).bind fun _ => happlied _)
    ((advances_chance 15).bind fun _ => happlied _)

theorem advances_cases : Advances (cases c d scope) := by
  rw [cases]
  refine (hexpr scope).bind fun _ => (advances_below 3).bind fun _ => ?_
  refine (advances_times ?_ _).bind_pure _
  exact (advances_pattern c 2).bind fun _ => (hexpr _).bind_pure _

end Below

/-- With a callee an application is drawn, without one something simpler. -/
theorem advances_applied? (hexpr : ∀ scope, Advances (expr c d scope)) (callee : Option Expr) :
    Advances (match callee with
      | none => leaf c scope
      | some f => do
        let n ← below 3
        return .app .unknown f (← times (n + 1) (expr c d scope))) := by
  cases callee with
  | none => exact advances_leaf c scope
  | some f =>
      exact (advances_below 3).bind fun _ => (advances_times (hexpr scope) _).bind_pure _

theorem advances_app (hexpr : ∀ d' ≤ d, ∀ scope, Advances (expr c d' scope)) :
    Advances (app c d scope) := by
  induction d using Nat.strong_induction_on with
  | _ d ih =>
      have happlied := advances_applied? c d scope (hexpr d le_rfl)
      unfold app
      refine .bind (advances_ite (advances_pure _) (advances_chance 50)) fun _ => advances_ite ?_ ?_
      · -- the callee is a variable
        cases scope with
        | nil => exact (advances_pure _).bind happlied
        | cons x xs => exact (advances_choose x xs).bind fun _ => (advances_pure _).bind happlied
      · split
        · exact (advances_pure _).bind happlied
        · exact (advances_pure _).bind happlied
        · rename_i d
          refine .bind (advances_ite (advances_pure _) (advances_chance 20)) fun _ => advances_ite ?_ ?_
          · -- the callee is an application itself, of less depth
            have happ := ih (d + 1) (by omega) fun d' hd' => hexpr d' (by omega)
            exact happ.bind fun _ => (advances_pure _).bind happlied
          · have hfn := advances_fn scope (hexpr (d + 1) (by omega))
            exact hfn.bind fun _ => (advances_pure _).bind happlied

theorem advances_expr : Advances (expr c d scope) := by
  induction d using Nat.strong_induction_on generalizing scope with
  | _ d ih =>
      unfold expr
      split
      · exact advances_leaf c scope
      · exact advances_leaf c scope
      · rename_i d
        have hsub : ∀ scope, Advances (expr c (d + 1) scope) := ih (d + 1) (by omega)
        have happ : Advances (app c (d + 1) scope) :=
          advances_app c (d + 1) scope fun d' hd' => ih d' (by omega)
        have hbinary : Advances (do
            return Expr.binary .unknown (← operator) (← expr c (d + 1) scope) (← expr c (d + 1) scope)) :=
          (advances_choose _ _).bind fun _ => (hsub scope).bind fun _ => (hsub scope).bind_pure _
        refine (advances_below 10).bind fun _ => ?_
        split
        · exact advances_leaf c scope
        · exact hbinary
        · exact hbinary
        · exact (hsub scope).bind fun _ => (hsub scope).bind fun _ => (hsub scope).bind_pure _
        · exact advances_fn scope hsub
        · exact happ
        · refine advances_binder.bind fun x => ?_
          have hlet : ∀ bound, Advances (do
              return Expr.letIn .unknown x bound (← expr c (d + 1) (scope ++ [x]))) := fun _ =>
            (hsub _).bind_pure _
          have hbound : ∀ recursive : Bool, Advances (do
              let bound ← if recursive then fn c d (scope ++ [x]) else expr c (d + 1) scope
              return Expr.letIn .unknown x bound (← expr c (d + 1) (scope ++ [x]))) := fun _ =>
            advances_ite ((advances_fn _ (ih d (by omega))).bind hlet) ((hsub scope).bind hlet)
          exact advances_ite ((advances_pure _).bind hbound) ((advances_chance 60).bind hbound)
        · exact advances_cases scope hsub
        · split
          · exact advances_construct scope hsub _ _
          · exact happ
        · exact (hsub scope).bind fun _ => (advances_type c 2).bind_pure _

/-- Programs are made by drawing words, one after the other. -/
theorem exists_word_program (word : UInt64) : ∃ n, (program c word).2 = shuffle^[n] word :=
  advances_expr c.normalize c.normalize.maxDepth.toNat [] word

theorem exists_iterate_program (k : Nat) (word : UInt64) :
    ∃ n, (fun word => (program c word).2)^[k] word = shuffle^[n] word := by
  induction k with
  | zero => exact ⟨0, rfl⟩
  | succ k ih =>
      obtain ⟨n, hn⟩ := ih
      obtain ⟨m, hm⟩ := exists_word_program c (shuffle^[n] word)
      exact ⟨m + n, by rw [iterate_succ_apply', hn, hm, iterate_add_apply]⟩

/-- **The words of a generator are never zero.** Different words are followed by different words, and
only zero by zero. Whatever the seed is, the word is not zero after any number of draws, and after any
number of programs it is the word after some number of draws. An expression without its program leaves
the same word. -/
theorem word_ne_zero :
    Injective shuffle ∧ (∀ word, shuffle word = 0 ↔ word = 0) ∧
    ∀ seed : UInt64,
      (∀ n, ((times n next).run (spread seed)).2 = shuffle^[n] (spread seed) ∧
        shuffle^[n] (spread seed) ≠ 0) ∧
      ∀ (c : Constraints) (k : Nat), ∃ n,
        (fun word => (program c word).2)^[k] (spread seed) = shuffle^[n] (spread seed) := by
  refine ⟨shuffle_injective, fun _ => shuffle_eq_zero_iff, fun seed => ⟨fun n => ⟨?_, ?_⟩, fun c k => ?_⟩⟩
  · exact word_times_next n (spread seed)
  · exact iterate_shuffle_ne_zero (spread_ne_zero seed) n
  · exact exists_iterate_program c k (spread seed)

end FunLang.Random
