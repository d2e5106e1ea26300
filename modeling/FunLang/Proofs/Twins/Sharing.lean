import FunLang.Proofs.Knots.Settled
import FunLang.Proofs.Twins.Evaluations

set_option autoImplicit false

/-!
# Evaluations from stores with a common beginning

Two stores that have come out of the same settled store share its knots, and may differ in those that
have been made since. Whatever refers only to the shared knots can be evaluated in both, side by side
(`Pairing.shared`).

Two pieces of work that refer only to the shared knots can be done in either order. Each of them is
done side by side with itself, once with the other piece done before it on the one side and once on the
other side. The two pairings that come of this speak of the same two final stores, and they can be joined
into one (`Pairing.join`). This is how work is put into another order (`IsLocal.commute`).
-/

namespace FunLang

variable {σ τ : Store} {env : Env} {π ρ : Pairing} {base : Nat}

/-! ## Shared knots -/

/-- The first `base` knots are paired with themselves. -/
structure Pairing.Shares (π : Pairing) (base : Nat) : Prop where
  loose : π.loose
  knots : ∀ k, k < base → π.knots k k

theorem Pairing.Shares.mono (h : π.Shares base) (hπ : π.Extends ρ) : ρ.Shares base :=
  ⟨hπ.loose h.loose, fun k hk => hπ.knots k k (h.knots k hk)⟩

theorem Pairing.Shares.reflexive (h : π.Shares σ.knots.size) {refs : List KnotRef}
    (hrefs : σ.Covers refs) : π.Reflexive refs := by
  refine ⟨h.loose, fun r hr => ?_⟩
  obtain ⟨k, hk, rfl⟩ := hrefs r hr
  exact h.knots k hk

theorem Pairing.Shares.code (h : π.Shares σ.knots.size) {e : Expr} (he : Settled σ env e) :
    π.Code env env e :=
  ⟨Or.inr (h.reflexive he.expr), fun y _ => .refl env (h.reflexive he.env) y⟩

/-- Two stores of which the first `base` knots correspond to each other. -/
def Pairing.shared (σ τ : Store) (base : Nat) : Pairing := ⟨σ, τ, fun k l => k = l ∧ k < base, True⟩

theorem Pairing.shares_shared (σ τ : Store) (base : Nat) : (Pairing.shared σ τ base).Shares base :=
  ⟨trivial, fun _ hk => ⟨rfl, hk⟩⟩

/-- Two stores that have come out of the same settled store. -/
theorem Pairing.linked_shared {σ₀ : Store} (hσ₀ : σ₀.Settled) (hσ : σ₀.Keeps σ) (hτ : σ₀.Keeps τ) :
    (Pairing.shared σ τ σ₀.knots.size).Linked := by
  have hsize := hσ.size
  have hsize' := hτ.size
  constructor
  · rintro k l l' ⟨rfl, -⟩ ⟨rfl, -⟩
    rfl
  · rintro k k' l ⟨rfl, -⟩ ⟨rfl, -⟩
    rfl
  · rintro k l ⟨rfl, hk⟩
    refine Or.inl ⟨?_, ?_⟩
    · exact Nat.lt_of_lt_of_le hk hsize
    · exact Nat.lt_of_lt_of_le hk hsize'
  · rintro k l ⟨rfl, hk⟩
    show Option.Rel _ (σ.knotValue? k) (τ.knotValue? k)
    rw [hσ.values k hk, hτ.values k hk]
    cases hv : σ₀.knotValue? k with
    | none => exact .none
    | some v => exact .some (.refl v ((Pairing.shares_shared σ τ _).reflexive (hσ₀ k v hv)))

/-! ## Joined pairings -/

/-- The pairing of the left store of `π` with the right store of `ρ`. -/
def Pairing.join (π ρ : Pairing) : Pairing :=
  ⟨π.left, ρ.right, fun k l => π.knots k l ∨ ρ.knots k l, π.loose⟩

/-- Pairings that can be joined: the stores of each go on with those of the other, and apart from the
first `base` knots they pair only knots that the other one knows nothing of. -/
structure Pairing.Joins (π ρ : Pairing) (base : Nat) : Prop where
  left : ρ.left.Keeps π.left
  right : π.right.Keeps ρ.right
  loose : ρ.loose → π.loose
  size : base ≤ π.right.knots.size
  first : ∀ k l, π.knots k l → k = l ∧ k < base ∨
    (ρ.left.knots.size ≤ k ∧ k < π.left.knots.size) ∧ base ≤ l ∧ l < π.right.knots.size
  second : ∀ k l, ρ.knots k l → k = l ∧ k < base ∨
    (base ≤ k ∧ k < ρ.left.knots.size) ∧ π.right.knots.size ≤ l ∧ l < ρ.right.knots.size

theorem Pairing.Joins.extends_left (h : π.Joins ρ base) : π.Extends (π.join ρ) :=
  ⟨fun _ _ hk => Or.inl hk, fun _ _ hk => hk, fun _ _ hk => h.right.of_some hk, fun hπ => hπ⟩

theorem Pairing.Joins.extends_right (h : π.Joins ρ base) : ρ.Extends (π.join ρ) :=
  ⟨fun _ _ hk => Or.inr hk, fun _ _ hk => h.left.of_some hk, fun _ _ hk => hk, h.loose⟩

theorem Pairing.Joins.linked (h : π.Joins ρ base) (hπ : π.Linked) (hρ : ρ.Linked)
    (hbase : base ≤ ρ.left.knots.size) : (π.join ρ).Linked := by
  have hleft := h.left.size
  have hright := h.right.size
  have hsize := h.size
  constructor
  -- a knot that both pairings know of is a shared one, and each pairs it with itself
  · intro k l l' hk hk'
    rcases hk with hk | hk <;> rcases hk' with hk' | hk'
    · exact hπ.left_unique k l l' hk hk'
    · have := h.first k l hk
      have := h.second k l' hk'
      omega
    · have := h.second k l hk
      have := h.first k l' hk'
      omega
    · exact hρ.left_unique k l l' hk hk'
  · intro k k' l hk hk'
    rcases hk with hk | hk <;> rcases hk' with hk' | hk'
    · exact hπ.right_unique k k' l hk hk'
    · have := h.first k l hk
      have := h.second k' l hk'
      omega
    · have := h.second k l hk
      have := h.first k' l hk'
      omega
    · exact hρ.right_unique k k' l hk hk'
  · intro k l hk
    show k < π.left.knots.size ∧ l < ρ.right.knots.size ∨ _
    rcases hk with hk | hk
    · have := h.first k l hk
      exact Or.inl (by omega)
    · have := h.second k l hk
      exact Or.inl (by omega)
  · intro k l hk
    show Option.Rel _ (π.left.knotValue? k) (ρ.right.knotValue? l)
    -- a knot of the one pairing is as it was when the work of the other one began
    rcases hk with hk | hk
    · have hl : l < π.right.knots.size := by
        have := h.first k l hk
        omega
      rw [h.right.values l hl]
      exact h.extends_left.rel (hπ.values k l hk)
    · have hlt : k < ρ.left.knots.size := by
        have := h.second k l hk
        omega
      rw [h.left.values k hlt]
      exact h.extends_right.rel (hρ.values k l hk)

/-! ## Work in another order -/

/-- A piece of work: from a store it leads, at a cost, to another store and to an expression. -/
abbrev Work := Store → Nat → Store → Expr → Prop

/-- Work that refers only to the first `base` knots: it can be done wherever these are, with twins as
the result, and it leaves all knots alone that are there before. -/
structure IsLocal (env : Env) (base : Nat) (W : Work) : Prop where
  twin : ∀ (π : Pairing) (n : Nat) (σ' : Store) (e : Expr), π.Linked → π.Shares base →
    W π.left n σ' e → ∃ π' e', π.Grows π' ∧ π'.Linked ∧ π'.left = σ' ∧ W π.right n π'.right e' ∧
      Expr.Twin π' env env e e'
  keeps : ∀ (σ : Store) (n : Nat) (σ' : Store) (e : Expr), σ.Settled → base ≤ σ.knots.size →
    W σ n σ' e → σ.Keeps σ' ∧ σ'.Settled

/-- **Work that is local can be done in either order.** It costs the same and leads to twins. -/
theorem IsLocal.commute {A B : Work} (hA : IsLocal env σ.knots.size A) (hB : IsLocal env σ.knots.size B)
    (hσ : σ.Settled) {σ₁ σ₂ : Store} {n m : Nat} {a b : Expr} (ha : A σ n σ₁ a) (hb : B σ₁ m σ₂ b) :
    ∃ (π : Pairing) (τ₁ : Store) (a' b' : Expr), B σ m τ₁ b' ∧ A τ₁ n π.right a' ∧ π.left = σ₂ ∧
      π.Linked ∧ π.Shares σ.knots.size ∧ Expr.Twin π env env a a' ∧ Expr.Twin π env env b b' := by
  obtain ⟨hkeeps₁, hσ₁⟩ := hA.keeps σ n σ₁ a hσ le_rfl ha
  obtain ⟨hkeeps₂, -⟩ := hB.keeps σ₁ m σ₂ b hσ₁ hkeeps₁.size hb
  -- `B` is done without `A` before it
  have hlinked := Pairing.linked_shared hσ hkeeps₁ (.refl σ)
  obtain ⟨π, b', hgrows, hπ, hleft, hb', htwin⟩ :=
    hB.twin _ m σ₂ b hlinked (Pairing.shares_shared σ₁ σ _) hb
  obtain ⟨hkeeps₁', hτ₁⟩ := hB.keeps σ m π.right b' hσ le_rfl hb'
  -- `A` is done with `B` before it
  have hlinked' := Pairing.linked_shared hσ (.refl σ) hkeeps₁'
  obtain ⟨ρ, a', hgrows', hρ, hleft', ha', htwin'⟩ :=
    hA.twin _ n σ₁ a hlinked' (Pairing.shares_shared σ π.right _) ha
  obtain ⟨hkeeps₂', -⟩ := hA.keeps π.right n ρ.right a' hτ₁ hkeeps₁'.size ha'
  have hjoins : π.Joins ρ σ.knots.size := by
    refine ⟨?_, hkeeps₂', fun _ => hgrows.loose.mpr trivial, hkeeps₁'.size, fun k l hk => ?_,
      fun k l hk => ?_⟩
    · rw [hleft, hleft']
      exact hkeeps₂
    · rw [hleft']
      exact hgrows.added k l hk
    · exact hgrows'.added k l hk
  have hbase : σ.knots.size ≤ ρ.left.knots.size := by
    rw [hleft']
    exact hkeeps₁.size
  exact ⟨π.join ρ, π.right, a', b', hb', ha', hleft, hjoins.linked hπ hρ hbase,
    ((Pairing.shares_shared σ₁ σ _).mono hgrows.extends).mono hjoins.extends_left,
    htwin'.extend hjoins.extends_right, htwin.extend hjoins.extends_left⟩

end FunLang
