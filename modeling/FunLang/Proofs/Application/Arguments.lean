import FunLang.Proofs.Knots.Settled
import FunLang.Proofs.Twins.Evaluations

set_option autoImplicit false

/-!
# Feeding arguments to a function

An application evaluates its first argument, then the function, and then puts the two together. The
function that the next argument is for is what comes of this: a constructed value with one more field, or
the body of a function, which is not evaluated before the next argument is there.

`Feeds env σ f as n σ' g` says that `f` has been fed the arguments `as` in this way, at the cost of
`n`, and that `g` is what is still to be evaluated. An application to arguments evaluates to a value
exactly if `g` does (`evaluates_app_iff`), and arguments can be fed in portions (`feeds_append_iff`).
-/

namespace FunLang

/-- What a value that is applied to an argument leads to. -/
def Value.applied? : Value → Value → Option Expr
  | .closure _ x body env, v => some (.within (.bind env x v) body)
  | .data c fields, v => some (.value (.data c (fields ++ [v])))
  | _, _ => none

/-- The arguments are fed to `f` one after the other; `g` is what is left to evaluate. -/
inductive Feeds (env : Env) : Store → Expr → List Expr → Nat → Store → Expr → Prop where
  | nil {σ f} : Feeds env σ f [] 0 σ f
  | cons {σ σ₁ σ₂ σ₃ f a rest n₁ n₂ n₃ v u g h} (ha : Evaluates .part σ env a n₁ (.value v σ₁))
      (hf : Evaluates .part σ₁ env f n₂ (.value u σ₂)) (hg : u.applied? v = some g)
      (hrest : Feeds env σ₂ g rest n₃ σ₃ h) : Feeds env σ f (a :: rest) (n₁ + (n₂ + (n₃ + 1))) σ₃ h

/-! ## Applications -/

section Applications

variable {pl : Place} {σ σ' : Store} {env : Env} {p : Pos} {f g : Expr} {as bs : List Expr} {n m : Nat}
  {w : Value}

theorem Feeds.evaluates (pl : Place) (p : Pos) (h : Feeds env σ f as n σ' g) (has : as ≠ [])
    {τ : Store} (hg : Evaluates .part σ' env g m (.value w τ)) :
    Evaluates pl σ env (.app p f as) (n + m) (.value w τ) := by
  induction h with
  | nil => exact absurd rfl has
  | @cons σ σ₁ σ₂ σ₃ f a rest n₁ n₂ n₃ v u g h ha hf happ hrest ih =>
      cases rest with
      | nil =>
          -- nothing is left but the body of the function, or the value that has been made
          cases hrest
          cases u with
          | closure label x body env' =>
              cases happ
              cases hg with
              | within hbody => exact (Evaluates.app_closure_last ha hf hbody).of_cost (by omega)
          | data c fields =>
              cases happ
              cases hg
              exact .app_data_last ha hf
          | _ => cases happ
      | cons b rest =>
          have hnext := ih (by simp) hg
          cases u with
          | closure label x body env' =>
              cases happ
              exact (Evaluates.app_closure ha hf hnext).of_cost (by omega)
          | data c fields =>
              cases happ
              exact (Evaluates.app_data ha hf hnext).of_cost (by omega)
          | _ => cases happ

theorem Evaluates.exists_feeds {τ : Store} (has : as ≠ [])
    (h : Evaluates pl σ env (.app p f as) n (.value w τ)) :
    ∃ n₁ n₂ σ₁ g, Feeds env σ f as n₁ σ₁ g ∧ Evaluates .part σ₁ env g n₂ (.value w τ) ∧
      n = n₁ + n₂ := by
  induction as generalizing σ f n with
  | nil => exact absurd rfl has
  | cons a rest ih =>
      cases h with
      | app_closure_last ha hf hb =>
          exact ⟨_, _, _, _, .cons ha hf rfl .nil, .within hb, by omega⟩
      | app_data_last ha hf => exact ⟨_, _, _, _, .cons ha hf rfl .nil, .value_part, by omega⟩
      | app_closure ha hf hb | app_data ha hf hb =>
          obtain ⟨n₁, n₂, σ₁, g, hfeeds, hg, rfl⟩ := ih (by simp) hb
          exact ⟨_, _, _, _, .cons ha hf rfl hfeeds, hg, by omega⟩

/-- An application evaluates to what is left of it once all its arguments are fed. -/
theorem evaluates_app_iff {τ : Store} (has : as ≠ []) :
    Evaluates pl σ env (.app p f as) n (.value w τ) ↔
      ∃ n₁ n₂ σ₁ g, Feeds env σ f as n₁ σ₁ g ∧ Evaluates .part σ₁ env g n₂ (.value w τ) ∧
        n = n₁ + n₂ := by
  constructor
  · exact fun h => h.exists_feeds has
  · rintro ⟨n₁, n₂, σ₁, g, hfeeds, hg, rfl⟩
    exact hfeeds.evaluates pl p has hg

/-- Where an application stands makes no difference to its value. -/
theorem Evaluates.app_at {τ : Store} (has : as ≠ [])
    (h : Evaluates pl σ env (.app p f as) n (.value w τ)) (q : Pos) :
    Evaluates pl σ env (.app q f as) n (.value w τ) :=
  (evaluates_app_iff has).mpr ((evaluates_app_iff has).mp h)

/-- Arguments can be fed in two portions. -/
theorem feeds_append_iff {τ : Store} :
    Feeds env σ f (as ++ bs) n τ g ↔
      ∃ n₁ n₂ σ₁ h, Feeds env σ f as n₁ σ₁ h ∧ Feeds env σ₁ h bs n₂ τ g ∧ n = n₁ + n₂ := by
  induction as generalizing σ f n with
  | nil =>
      constructor
      · intro h
        exact ⟨0, n, σ, f, .nil, h, by omega⟩
      · rintro ⟨n₁, n₂, σ₁, h, hnil, hbs, rfl⟩
        cases hnil
        rw [Nat.zero_add]
        exact hbs
  | cons a rest ih =>
      constructor
      · intro h
        cases h with
        | cons ha hf hg hrest =>
            obtain ⟨n₁, n₂, σ₁, h, hfirst, hbs, rfl⟩ := ih.mp hrest
            exact ⟨_, n₂, σ₁, h, .cons ha hf hg hfirst, hbs, by omega⟩
      · rintro ⟨n₁, n₂, σ₁, h, has, hbs, rfl⟩
        cases has with
        | @cons _ τ₁ τ₂ _ _ _ _ m₁ m₂ m₃ _ _ g _ ha hf hg hrest =>
            have hcost : m₁ + (m₂ + (m₃ + 1)) + n₂ = m₁ + (m₂ + (m₃ + n₂ + 1)) := by omega
            rw [hcost]
            exact .cons ha hf hg (ih.mpr ⟨m₃, n₂, σ₁, h, hrest, hbs, rfl⟩)

end Applications

/-! ## Side by side -/

section Twins

variable {π : Pairing} {env env' : Env} {f f' g : Expr} {as : List Expr} {n : Nat} {σ' : Store}

theorem Value.Twin.applied? {u u' v v' : Value} (hu : u.Twin π u') (hv : v.Twin π v')
    (hg : u.applied? v = some g) : ∃ g', u'.applied? v' = some g' ∧ Expr.Twin π env env' g g' := by
  cases hu with
  | closure hbody henv =>
      cases hg
      have hcode : π.CodeUnder [_] _ _ _ := ⟨hbody, fun y hy hne => henv y hy (by simpa using hne)⟩
      exact ⟨_, rfl, .within (.code (hcode.bind hv))⟩
  | data c hs =>
      cases hg
      exact ⟨_, rfl, .value (.data c (hs.concat hv))⟩
  | _ => cases hg

/-- Twins that are fed the same arguments are left with twins. -/
theorem Feeds.twin (hπ : π.Linked) (hf : Expr.Twin π env env' f f')
    (has : ∀ a ∈ as, π.Code env env' a) (h : Feeds env π.left f as n σ' g) :
    ∃ π' g', π.Grows π' ∧ π'.Linked ∧ π'.left = σ' ∧ Feeds env' π.right f' as n π'.right g' ∧
      Expr.Twin π' env env' g g' := by
  generalize hσ : π.left = σ at h
  induction h generalizing π f' with
  | nil => exact ⟨π, f', .refl π, hπ, hσ, .nil, hf⟩
  | cons heval hcallee happ _ ih =>
      subst hσ
      -- each evaluation leads to a later pairing, in which what was twins before still is
      obtain ⟨_, heval', hv⟩ := heval.twin hπ (.code (has _ (by simp)))
      cases hv with
      | @value π₁ _ v' hgrows₁ hlinked₁ hv =>
          obtain ⟨_, hcallee', hu⟩ := hcallee.twin hlinked₁ (hf.mono hgrows₁)
          cases hu with
          | @value π₂ _ u' hgrows₂ hlinked₂ hu =>
              have hgrows := hgrows₁.trans hgrows₂
              obtain ⟨g', happ', hg⟩ := hu.applied? (hv.mono hgrows₂) happ
              have hrest : ∀ b ∈ _, π₂.Code env env' b := fun b hb =>
                (has b (List.mem_cons_of_mem _ hb)).mono hgrows
              obtain ⟨π₃, h', hgrows₃, hlinked₃, hleft, hfeeds, hh⟩ := ih hlinked₂ hg hrest rfl
              exact ⟨π₃, h', hgrows.trans hgrows₃, hlinked₃, hleft, .cons heval' hcallee' happ' hfeeds, hh⟩

end Twins

/-! ## Knots -/

theorem Value.refs_applied? {u v : Value} {g : Expr} (h : u.applied? v = some g) :
    g.refs ⊆ u.refs ++ v.refs := by
  cases u with
  | closure label x body env =>
      cases h
      intro r hr
      simp only [Expr.refs, Env.refs, Value.refs, List.mem_append] at hr ⊢
      tauto
  | data c fields =>
      cases h
      simp [Expr.refs, Value.refs, Value.refsAll_append, Value.refsAll]
  | _ => cases h

/-- Feeding settled arguments to a settled function leaves the knots of the store alone. -/
theorem Feeds.settles {env : Env} {σ σ' : Store} {f g : Expr} {as : List Expr} {n : Nat}
    (h : Feeds env σ f as n σ' g) (hf : Settled σ env f) (has : ∀ a ∈ as, Settled σ env a) :
    σ.Keeps σ' ∧ Settled σ' env g := by
  induction h with
  | nil => exact ⟨.refl _, hf⟩
  | cons heval hcallee happ _ ih =>
      have hv := heval.settles (has _ (by simp))
      have hu := hcallee.settles (hf.after hv)
      have hvu := hv.trans hu
      have hg : Settled _ env _ := ⟨hu.store, (hf.after hvu).env,
        (hu.value.append (hv.value.mono hu.keeps.size)).part (Value.refs_applied? happ)⟩
      obtain ⟨hkeeps, hh⟩ := ih hg fun b hb => (has b (List.mem_cons_of_mem _ hb)).after hvu
      exact ⟨hvu.keeps.trans hkeeps, hh⟩

end FunLang
