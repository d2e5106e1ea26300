import FunLang.Proofs.Knots.Store
import FunLang.Proofs.Twins.Bindings

set_option autoImplicit false

/-!
# Knots of two evaluations

In two evaluations side by side each knot of the one corresponds to at most one of the other, knots that
correspond to each other are resolved with twins or not at all, and knots that are yet to be made
correspond to each other only in the order in which they will be made (`Pairing.Linked`). This is kept
up when both evaluations make a knot, and when both resolve knots that correspond to each other.
-/

namespace FunLang

/-! ## Links -/

/-- Knots that correspond to each other are resolved with twins or not at all. -/
structure Pairing.Linked (π : Pairing) : Prop where
  left_unique : ∀ k l l', π.knots k l → π.knots k l' → l' = l
  right_unique : ∀ k k' l, π.knots k l → π.knots k' l → k' = k
  /-- Both of two knots that correspond to each other have been made, or neither has, and then they
  will be made at the same time. -/
  order : ∀ k l, π.knots k l → k < π.left.knots.size ∧ l < π.right.knots.size ∨
    ∃ i, k = π.left.knots.size + i ∧ l = π.right.knots.size + i
  values : ∀ k l, π.knots k l →
    Option.Rel (Value.Twin π) (π.left.knotValue? k) (π.right.knotValue? l)

variable {π π' : Pairing}

/-- Two evaluations that begin, with nothing in their stores. -/
def Pairing.start (loose : Prop) : Pairing := ⟨.empty, .empty, fun _ _ => False, loose⟩

theorem Pairing.linked_start (loose : Prop) : (Pairing.start loose).Linked :=
  ⟨nofun, nofun, nofun, nofun⟩

theorem Pairing.Extends.rel (h : π.Extends π') {r r' : Option Value}
    (hr : Option.Rel (Value.Twin π) r r') : Option.Rel (Value.Twin π') r r' := by
  cases hr with
  | none => exact .none
  | some hv => exact .some (hv.extend h)

theorem Pairing.Grows.rel (h : π.Grows π') {r r' : Option Value}
    (hr : Option.Rel (Value.Twin π) r r') : Option.Rel (Value.Twin π') r r' :=
  h.extends.rel hr

/-! ## New functions -/

/-- Both evaluations make a function. -/
def Pairing.addLabel (π : Pairing) : Pairing :=
  { π with left := π.left.addLabel, right := π.right.addLabel }

theorem Pairing.grows_addLabel (π : Pairing) : π.Grows π.addLabel :=
  ⟨fun _ _ h => h, fun _ _ h => h, fun _ _ h => h, Iff.rfl, le_rfl, le_rfl, fun _ _ h => Or.inl h⟩

theorem Pairing.Linked.addLabel (h : π.Linked) : π.addLabel.Linked :=
  ⟨h.left_unique, h.right_unique, h.order, fun k l hk => π.grows_addLabel.rel (h.values k l hk)⟩

/-! ## New knots -/

/-- Both evaluations make a knot; the two correspond to each other. -/
def Pairing.addKnot (π : Pairing) (x : String) : Pairing :=
  { π with
    left := π.left.addKnot x
    right := π.right.addKnot x
    knots := fun k l => π.knots k l ∨ k = π.left.knots.size ∧ l = π.right.knots.size }

theorem Pairing.grows_addKnot (π : Pairing) (x : String) : π.Grows (π.addKnot x) := by
  have hl : (π.addKnot x).left.knots.size = π.left.knots.size + 1 := π.left.size_addKnot x
  have hr : (π.addKnot x).right.knots.size = π.right.knots.size + 1 := π.right.size_addKnot x
  refine ⟨fun _ _ h => Or.inl h, ?_, ?_, Iff.rfl, by omega, by omega, ?_⟩
  · intro k v hk
    exact (Store.knotValue?_addKnot π.left x k).trans hk
  · intro k v hk
    exact (Store.knotValue?_addKnot π.right x k).trans hk
  · rintro k l (hk | ⟨rfl, rfl⟩)
    · exact Or.inl hk
    · exact Or.inr (by omega)

theorem Pairing.Linked.addKnot (h : π.Linked) (x : String) : (π.addKnot x).Linked := by
  have hl : (π.addKnot x).left.knots.size = π.left.knots.size + 1 := π.left.size_addKnot x
  have hr : (π.addKnot x).right.knots.size = π.right.knots.size + 1 := π.right.size_addKnot x
  -- a knot that was paired before with the new one of the other side is the new one of its own side
  have hnew : ∀ k l, π.knots k l → (k = π.left.knots.size ↔ l = π.right.knots.size) := by
    intro k l hk
    rcases h.order k l hk with hlt | ⟨i, hi⟩ <;> omega
  constructor
  · rintro k l l' (hk | ⟨rfl, rfl⟩) (hk' | ⟨hkl, rfl⟩)
    · exact h.left_unique k l l' hk hk'
    · exact ((hnew k l hk).mp hkl).symm
    · exact (hnew _ l' hk').mp rfl
    · rfl
  · rintro k k' l (hk | ⟨rfl, rfl⟩) (hk' | ⟨rfl, hkl⟩)
    · exact h.right_unique k k' l hk hk'
    · exact ((hnew k l hk).mpr hkl).symm
    · exact (hnew k' _ hk').mpr rfl
    · rfl
  · rintro k l (hk | ⟨rfl, rfl⟩)
    · rcases h.order k l hk with hlt | ⟨i, hi⟩
      · exact Or.inl (by omega)
      · cases i with
        | zero => exact Or.inl (by omega)
        | succ i => exact Or.inr ⟨i, by omega⟩
    · exact Or.inl (by omega)
  · intro k l hk
    have hvl : (π.addKnot x).left.knotValue? k = π.left.knotValue? k := Store.knotValue?_addKnot _ x k
    have hvr : (π.addKnot x).right.knotValue? l = π.right.knotValue? l := Store.knotValue?_addKnot _ x l
    rw [hvl, hvr]
    rcases hk with hk | ⟨rfl, rfl⟩
    · exact (π.grows_addKnot x).rel (h.values k l hk)
    · rw [Store.knotValue?_eq_none_of_le le_rfl, Store.knotValue?_eq_none_of_le le_rfl]
      exact .none

/-! ## Resolved knots -/

/-- Both evaluations resolve a knot. -/
def Pairing.resolve (π : Pairing) (k l : Nat) (v v' : Value) : Pairing :=
  { π with left := π.left.resolve k v, right := π.right.resolve l v' }

theorem Pairing.grows_resolve (π : Pairing) (k l : Nat) (v v' : Value) :
    π.Grows (π.resolve k l v v') :=
  ⟨fun _ _ h => h, fun _ _ h => Store.knotValue?_resolve_of_some h k v,
    fun _ _ h => Store.knotValue?_resolve_of_some h l v', Iff.rfl,
    (Store.size_resolve π.left k v).ge, (Store.size_resolve π.right l v').ge, fun _ _ h => Or.inl h⟩

theorem Pairing.Linked.resolve (h : π.Linked) {k l : Nat} (hkl : π.knots k l) {v v' : Value}
    (hv : v.Twin π v') : (π.resolve k l v v').Linked := by
  have hgrows := π.grows_resolve k l v v'
  refine ⟨h.left_unique, h.right_unique, ?_, ?_⟩
  · intro k' l' hk
    have hl : (π.resolve k l v v').left.knots.size = π.left.knots.size := Store.size_resolve _ k v
    have hr : (π.resolve k l v v').right.knots.size = π.right.knots.size := Store.size_resolve _ l v'
    rw [hl, hr]
    exact h.order k' l' hk
  · intro k' l' hk
    show Option.Rel _ ((π.left.resolve k v).knotValue? k') ((π.right.resolve l v').knotValue? l')
    by_cases hk' : k' = k
    · subst hk'
      obtain rfl := h.left_unique _ _ _ hkl hk
      by_cases habsent : v = .absent
      · subst habsent
        cases hv
        exact hgrows.rel (h.values _ _ hk)
      · have habsent' : v' ≠ .absent := by
          rintro rfl
          cases hv
          exact habsent rfl
        rcases h.order _ _ hk with ⟨hlt, hlt'⟩ | ⟨i, hi, hi'⟩
        · -- the knots have been made on both sides, and a value that they have already stays
          rw [Store.knotValue?_resolve_self hlt habsent, Store.knotValue?_resolve_self hlt' habsent']
          have hvalues := h.values _ _ hk
          generalize π.left.knotValue? _ = r, π.right.knotValue? _ = r' at hvalues ⊢
          cases hvalues with
          | none => exact .some (hv.mono hgrows)
          | some hw => exact .some (hw.mono hgrows)
        · -- they are still to be made on both sides
          rw [Store.knotValue?_eq_none_of_le, Store.knotValue?_eq_none_of_le]
          · exact .none
          · rw [Store.size_resolve]
            omega
          · rw [Store.size_resolve]
            omega
    · have hl' : l' ≠ l := fun hl' => hk' (h.right_unique _ _ _ hkl (hl' ▸ hk))
      rw [Store.knotValue?_resolve_of_ne _ v hk', Store.knotValue?_resolve_of_ne _ v' hl']
      exact hgrows.rel (h.values k' l' hk)

/-! ## Knots of one side

The second evaluation may make a knot that the first one has no use for. It is paired with none, provided
that no knots are paired ahead of being made. -/

/-- Only knots that have been made are paired. -/
def Pairing.Made (π : Pairing) : Prop :=
  ∀ k l, π.knots k l → k < π.left.knots.size ∧ l < π.right.knots.size

theorem Pairing.Grows.made (h : π.Grows π') (hπ : π.Made) : π'.Made := by
  intro k l hk
  have hl := h.size_left
  have hr := h.size_right
  rcases h.added k l hk with hk | hk
  · have hlt := hπ k l hk
    omega
  · omega

/-- The second evaluation makes a knot. -/
def Pairing.addRight (π : Pairing) (x : String) : Pairing := { π with right := π.right.addKnot x }

theorem Pairing.grows_addRight (π : Pairing) (x : String) : π.Grows (π.addRight x) := by
  have hr : (π.addRight x).right.knots.size = π.right.knots.size + 1 := π.right.size_addKnot x
  refine ⟨fun _ _ h => h, fun _ _ h => h, fun k v hk => ?_, Iff.rfl, le_rfl, by omega,
    fun _ _ h => Or.inl h⟩
  exact (Store.knotValue?_addKnot π.right x k).trans hk

theorem Pairing.Linked.addRight (h : π.Linked) (hπ : π.Made) (x : String) : (π.addRight x).Linked := by
  have hr : (π.addRight x).right.knots.size = π.right.knots.size + 1 := π.right.size_addKnot x
  refine ⟨h.left_unique, h.right_unique, fun k l hk => Or.inl ?_, fun k l hk => ?_⟩
  · have hlt := hπ k l hk
    exact ⟨hlt.1, by omega⟩
  · have hv : (π.addRight x).right.knotValue? l = π.right.knotValue? l := Store.knotValue?_addKnot _ x l
    rw [hv]
    exact (π.grows_addRight x).rel (h.values k l hk)

/-- The second evaluation resolves a knot. -/
def Pairing.resolveRight (π : Pairing) (l : Nat) (v : Value) : Pairing :=
  { π with right := π.right.resolve l v }

theorem Pairing.grows_resolveRight (π : Pairing) (l : Nat) (v : Value) :
    π.Grows (π.resolveRight l v) :=
  ⟨fun _ _ h => h, fun _ _ h => h, fun _ _ h => Store.knotValue?_resolve_of_some h l v, Iff.rfl,
    le_rfl, (Store.size_resolve π.right l v).ge, fun _ _ h => Or.inl h⟩

theorem Pairing.Linked.resolveRight (h : π.Linked) {l : Nat} (hl : ∀ k, ¬ π.knots k l) (v : Value) :
    (π.resolveRight l v).Linked := by
  have hr : (π.resolveRight l v).right.knots.size = π.right.knots.size := Store.size_resolve _ l v
  refine ⟨h.left_unique, h.right_unique, fun k l' hk => ?_, fun k l' hk => ?_⟩
  · rw [hr]
    exact h.order k l' hk
  · have hne : l' ≠ l := fun heq => hl k (heq ▸ hk)
    have hv : (π.resolveRight l v).right.knotValue? l' = π.right.knotValue? l' :=
      Store.knotValue?_resolve_of_ne _ v hne
    rw [hv]
    exact (π.grows_resolveRight l v).rel (h.values k l' hk)

/-! ## Lookups -/

/-- What twins find under a name. -/
inductive Lookup.Twin (π : Pairing) : Lookup → Lookup → Prop where
  | unbound (hπ : π.loose) : Lookup.Twin π .unbound .unbound
  | unresolved : Lookup.Twin π .unresolved .unresolved
  | found {v v' : Value} (hv : v.Twin π v') : Lookup.Twin π (.found v) (.found v')

theorem Env.TwinAt.lookup {env env' : Env} {y : String} (hπ : π.Linked) (h : env.TwinAt π env' y) :
    Lookup.Twin π (env.lookup π.left y) (env'.lookup π.right y) := by
  cases h with
  | unbound hloose h h' =>
      simp only [Env.lookup, h, h']
      exact .unbound hloose
  | found h h' hv =>
      rw [h, h']
      exact .found hv
  | knot h h' hk =>
      simp only [Env.lookup, h, h']
      have hvalues := hπ.values _ _ hk
      generalize π.left.knotValue? _ = r, π.right.knotValue? _ = r' at hvalues ⊢
      cases hvalues with
      | none => exact .unresolved
      | some hv => exact .found hv

end FunLang
