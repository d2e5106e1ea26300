import FunLang.Proofs.Knots.Steps
import FunLang.Proofs.Knots.Store

set_option autoImplicit false

/-!
# Knots that are tied in order

Of the knots that have been made in an evaluation, those are unresolved that belong to the `let`s under
way, and each belongs to one of them (`Tied`). This holds after a step if it held before it, whichever
of the three things the step does to the knots (`Change.tied`), and a knot that is resolved keeps its
value (`Change.knotValue?_eq`).
-/

namespace FunLang

/-! ## Knots and `let`s under way -/

/-- The knots that an evaluation may come upon: those in `K`, and those made from number `base` on,
each with the name it was made for. -/
def Known (K : String → Nat → Prop) (base : Nat) (σ : Store) : String → Nat → Prop :=
  fun x k => K x k ∨ base ≤ k ∧ ∃ knot, σ.knots[k]? = some knot ∧ knot.name = x

/-- A store in which, of the knots from number `base` on, those are unresolved that belong to the
`let`s under way. -/
structure Tied (K : String → Nat → Prop) (base : Nat) (σ : Store) (lets : List (String × Nat)) : Prop where
  size : base ≤ σ.knots.size
  resolved : ∀ x k, K x k → k < base ∧ ∃ v, σ.knotValue? k = some v
  values : ∀ x k v, Known K base σ x k → σ.knotValue? k = some v → v.AtRest (Known K base σ)
  unresolved : ∀ x k, (x, k) ∈ lets ↔ base ≤ k ∧ σ.knots[k]? = some ⟨x, none⟩
  nodup : (lets.map Prod.snd).Nodup

variable {K K' : String → Nat → Prop} {base : Nat} {σ σ' : Store} {lets lets' : List (String × Nat)}

/-- Which knots are made and not resolved. -/
theorem Tied.mem_lets_iff (h : Tied K base σ lets) (k : Nat) :
    base ≤ k ∧ k < σ.knots.size ∧ σ.knotValue? k = none ↔ k ∈ lets.map Prod.snd := by
  constructor
  · rintro ⟨hbase, hsize, hnone⟩
    have hk : σ.knots[k]? = some σ.knots[k] := Array.getElem?_eq_getElem hsize
    rw [Store.knotValue?_of_getElem? hk] at hnone
    refine List.mem_map.mpr ⟨(σ.knots[k].name, k), (h.unresolved _ k).mpr ⟨hbase, ?_⟩, rfl⟩
    rw [hk, ← hnone]
  · intro hmem
    obtain ⟨⟨x, l⟩, hlet, rfl⟩ := List.mem_map.mp hmem
    obtain ⟨hbase, hl⟩ := (h.unresolved x l).mp hlet
    exact ⟨hbase, (Array.getElem?_eq_some_iff.mp hl).1, Store.knotValue?_of_getElem? hl⟩

/-- A known knot that is not resolved belongs to a `let` under way, with its name. -/
theorem Tied.mem_lets_of_known (h : Tied K base σ lets) {x : String} {k : Nat} (hk : Known K base σ x k)
    (hnone : σ.knotValue? k = none) : (x, k) ∈ lets := by
  rcases hk with hk | ⟨hbase, ⟨name, value⟩, hknot, rfl⟩
  · obtain ⟨v, hv⟩ := (h.resolved x k hk).2
    simp [hv] at hnone
  · rw [Store.knotValue?_of_getElem? hknot] at hnone
    exact (h.unresolved _ k).mpr ⟨hbase, by rw [hknot, ← hnone]⟩

/-! ## One step -/

theorem Known.of_knots (hknots : σ'.knots = σ.knots) : Known K base σ' = Known K base σ := by
  unfold Known
  rw [hknots]

theorem Tied.keep (h : Tied K base σ lets) (hknots : σ'.knots = σ.knots) : Tied K base σ' lets := by
  have hvalue : ∀ k, σ'.knotValue? k = σ.knotValue? k := by simp [Store.knotValue?, hknots]
  constructor
  · simpa [hknots] using h.size
  · simpa [hvalue] using h.resolved
  · simpa [Known.of_knots hknots, hvalue] using h.values
  · simpa [hknots] using h.unresolved
  · exact h.nodup

theorem Known.addKnot (hsize : base ≤ σ.knots.size) (x : String) (y : String) (l : Nat) :
    Known K base (σ.addKnot x) y l ↔ withKnot (Known K base σ) x σ.knots.size y l := by
  unfold Known withKnot
  rw [Store.getElem?_addKnot]
  by_cases hl : l = σ.knots.size
  · simp [hl, hsize, eq_comm]
  · simp [hl]

theorem Tied.make (h : Tied K base σ lets) (x : String) :
    Tied K base (σ.addKnot x) (lets ++ [(x, σ.knots.size)]) := by
  -- the knots of the `let`s under way are in the store already, so none of them is the new one
  have hnew : ∀ y, (y, σ.knots.size) ∉ lets := by
    intro y hy
    simpa using ((h.unresolved y _).mp hy).2
  constructor
  · exact h.size.trans (by simp [Store.addKnot])
  · simpa [Store.knotValue?_addKnot] using h.resolved
  · intro y l v hl hv
    rw [Store.knotValue?_addKnot] at hv
    rcases (Known.addKnot h.size x y l).mp hl with hl | ⟨-, rfl⟩
    · exact (h.values y l v hl hv).mono fun z m hm => (Known.addKnot h.size x z m).mpr (Or.inl hm)
    · simp [Store.knotValue?] at hv
  · intro y l
    rw [List.mem_append, Store.getElem?_addKnot]
    by_cases hl : l = σ.knots.size
    · simp [hl, hnew y, h.size, eq_comm]
    · simp [hl, h.unresolved y l]
  · rw [List.map_append, List.nodup_append]
    refine ⟨h.nodup, by simp, ?_⟩
    rintro a ha b hb rfl
    obtain ⟨⟨y, l⟩, hy, rfl⟩ := List.mem_map.mp ha
    obtain rfl : l = σ.knots.size := by simpa using hb
    exact hnew y hy

theorem Known.resolve {x : String} {k : Nat} {v : Value} (hv : v ≠ .absent)
    (hk : σ.knots[k]? = some ⟨x, none⟩) : Known K base (σ.resolve k v) = Known K base σ := by
  funext y l
  unfold Known
  rw [Store.getElem?_resolve hv hk]
  by_cases hl : l = k
  · simp [hl, hk]
  · simp [hl]

theorem Tied.tie {x : String} {k : Nat} {v : Value} (h : Tied K base σ (lets ++ [(x, k)]))
    (hv : v.Computed (Known K base σ)) : Tied K base (σ.resolve k v) lets := by
  have hk : σ.knots[k]? = some ⟨x, none⟩ := ((h.unresolved x k).mp (by simp)).2
  have hnodup := h.nodup
  rw [List.map_append, List.nodup_append] at hnodup
  -- no other `let` under way has this knot, so that resolving it leaves theirs unresolved
  have hdone : ∀ y, (y, k) ∉ lets := fun y hy =>
    hnodup.2.2 k (List.mem_map.mpr ⟨(y, k), hy, rfl⟩) k (by simp) rfl
  constructor
  · exact h.size.trans (Store.size_resolve σ k v).ge
  · intro y l hl
    obtain ⟨hlt, w, hw⟩ := h.resolved y l hl
    refine ⟨hlt, w, ?_⟩
    -- this one is resolved and `k` is not
    rw [Store.knotValue?_resolve hv.1 hk, if_neg, hw]
    rintro rfl
    simp [Store.knotValue?_of_getElem? hk] at hw
  · intro y l w hl hw
    rw [Known.resolve hv.1 hk] at hl ⊢
    rw [Store.knotValue?_resolve hv.1 hk] at hw
    by_cases hlk : l = k
    · simp only [hlk, if_true, Option.some.injEq] at hw
      exact hw ▸ hv.2
    · simp only [hlk, if_false] at hw
      exact h.values y l w hl hw
  · intro y l
    rw [Store.getElem?_resolve hv.1 hk]
    by_cases hl : l = k
    · simp [hl, hdone y]
    · simpa [hl] using h.unresolved y l
  · exact hnodup.1

/-- A step keeps the order of the knots, and what it can see is known afterwards. -/
theorem Change.tied (hchange : Change (Known K base σ) σ lets σ' lets' K') (h : Tied K base σ lets) :
    Tied K base σ' lets' ∧ ∀ x k, K' x k → Known K base σ' x k := by
  cases hchange with
  | keep hknots =>
      refine ⟨h.keep hknots, fun x k hk => ?_⟩
      rw [Known.of_knots hknots]
      exact hk
  | make x => exact ⟨h.make x, fun y l hl => (Known.addKnot h.size x y l).mpr hl⟩
  | tie x k hv =>
      refine ⟨h.tie hv, fun y l hl => ?_⟩
      rw [Known.resolve hv.1 ((h.unresolved x k).mp (by simp)).2]
      exact hl

/-- A resolved knot keeps its value. -/
theorem Change.knotValue?_eq (hchange : Change (Known K base σ) σ lets σ' lets' K')
    (h : Tied K base σ lets) {k : Nat} {v : Value} (hk : σ.knotValue? k = some v) :
    σ'.knotValue? k = some v := by
  cases hchange with
  | keep hknots => simpa [Store.knotValue?, hknots] using hk
  | make x => rw [Store.knotValue?_addKnot, hk]
  | tie x l hv =>
      have hl := ((h.unresolved x l).mp (by simp)).2
      rw [Store.knotValue?_resolve hv.1 hl, if_neg, hk]
      rintro rfl
      simp [Store.knotValue?_of_getElem? hl] at hk

end FunLang
