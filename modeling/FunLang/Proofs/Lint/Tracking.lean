import FunLang.Proofs.Lint.Mentions

set_option autoImplicit false

/-!
# Scopes hold what is in force

Linting goes through an expression with a scope in hand. At each place the scope holds exactly the binders
that are in force there, the nearest one first (`Tracks`), so that the binder which is found for a name is
the one that the name refers to (`Tracks.find?_cases`). A binder comes into force behind its place
(`Tracks.push`), and what a node binds is in force within it (`Tracks.descend`).
-/

namespace FunLang.Lint

/-- A binder as linting has it in its scope at a node. -/
def Mention.binderAt (node : Node) (b : Mention) : Binder :=
  { b.binder with pending := b.Pending node }

theorem Mention.binderAt_child {b : Mention} {node : Node} {n : Nat} (h : 0 :: b.place.node ≠ n :: node) :
    b.binderAt (n :: node) = b.binderAt node := by
  have hpending : b.Pending (n :: node) ↔ b.Pending node := by
    simp only [Pending, List.suffix_cons_iff, h, false_or]
  simp only [binderAt, hpending]

theorem Mention.binderAt_own {b : Mention} {node : Node} (h : b.place.node = node) :
    b.binderAt node = b.binder := by
  have hpending : ¬ b.Pending node := by
    rintro ⟨-, hsuffix⟩
    have hlength := hsuffix.length_le
    rw [h, List.length_cons] at hlength
    omega
  simp only [binderAt, hpending]
  rfl

/-- In its own bound expression the name of a `let` is pending. -/
theorem Mention.binderAt_bound {b : Mention} {node : Node} (h : b.kind? = some .letBinding)
    (hnode : b.place.node = node) : b.binderAt (0 :: node) = { b.binder with pending := true } := by
  have hpending : b.Pending (0 :: node) := ⟨h, by rw [hnode]⟩
  simp only [binderAt, hpending]
  rfl

theorem Mention.binderAt_of_kind {b : Mention} (h : b.kind? ≠ some .letBinding) (node : Node) :
    b.binderAt node = b.binder := by
  have hpending : ¬ b.Pending node := fun hp => h hp.1
  simp only [binderAt, hpending]
  rfl

/-- The scope at a place holds the binders that are in force, the nearest one first. -/
structure Tracks (ms : List Mention) (p : Place) (Γ : Scope) (bs : List Mention) : Prop where
  scope : Γ = bs.map (Mention.binderAt p.node)
  inForce : ∀ b, b ∈ bs ↔ b ∈ ms ∧ b.isBinder = true ∧ b.place.Before p
  sorted : bs.Pairwise fun b c => c.place.Before b.place

/-- The nearest binder of a name in a list, with its level. -/
theorem Scope.find?_map {f : Mention → Binder} (hf : ∀ b, (f b).name = b.name) (bs : List Mention)
    (x : String) :
    (Scope.find? (bs.map f) x = none ∧ ∀ b ∈ bs, b.name ≠ x) ∨
    ∃ before b behind, bs = before ++ b :: behind ∧ (∀ c ∈ before, c.name ≠ x) ∧ b.name = x ∧
      Scope.find? (bs.map f) x = some (behind.length, f b) := by
  induction bs with
  | nil => exact Or.inl ⟨rfl, by simp⟩
  | cons b bs ih =>
      rw [List.map_cons, Scope.find?]
      by_cases hname : b.name = x
      · refine Or.inr ⟨[], b, bs, rfl, by simp, hname, ?_⟩
        rw [if_pos ((hf b).trans hname), List.length_map]
      rw [if_neg fun h => hname ((hf b).symm.trans h)]
      rcases ih with ⟨hnone, hall⟩ | ⟨before, c, behind, rfl, hbefore, hc, hsome⟩
      · exact Or.inl ⟨hnone, List.forall_mem_cons.mpr ⟨hname, hall⟩⟩
      · exact Or.inr ⟨b :: before, c, behind, rfl, List.forall_mem_cons.mpr ⟨hname, hbefore⟩, hc, hsome⟩

section Tracks

variable {ms : List Mention} {p : Place} {Γ : Scope} {bs : List Mention}

theorem Tracks.length_eq (h : Tracks ms p Γ bs) : Γ.length = bs.length := by
  rw [h.scope, List.length_map]

theorem Tracks.nodup (h : Tracks ms p Γ bs) : bs.Nodup :=
  h.sorted.imp fun hbefore heq => hbefore.ne (by rw [heq])

/-- What linting finds for a name is what the name refers to. -/
theorem Tracks.find?_cases {m : Mention} (h : Tracks ms m.place Γ bs) :
    (Γ.find? m.name = none ∧ ∀ b ∈ ms, ¬ InForce ms m b) ∨
    ∃ level b, Γ.find? m.name = some (level, b.binderAt m.place.node) ∧ bs.reverse[level]? = some b ∧
      RefersTo ms m b := by
  obtain ⟨hscope, hinForce, hsorted⟩ := h
  have hmem : ∀ b, InForce ms m b ↔ b ∈ bs ∧ b.name = m.name := by
    intro b
    rw [hinForce, InForce]
    tauto
  rcases Scope.find?_map (f := Mention.binderAt m.place.node) (fun _ => rfl) bs m.name with
    ⟨hnone, hall⟩ | ⟨before, b, behind, rfl, hbefore, hname, hsome⟩
  · exact Or.inl ⟨by rw [hscope, hnone], fun b _ hb => hall b ((hmem b).mp hb).1 ((hmem b).mp hb).2⟩
  · refine Or.inr ⟨behind.length, b, by rw [hscope, hsome], by simp, (hmem b).mpr ⟨by simp, hname⟩, ?_⟩
    intro c _ hc
    obtain ⟨hcmem, hcname⟩ := (hmem c).mp hc
    rcases List.mem_append.mp hcmem with hcmem | hcmem
    · exact absurd hcname (hbefore c hcmem)
    rcases List.mem_cons.mp hcmem with rfl | hcmem
    · exact Or.inl rfl
    · have hbehind := (List.pairwise_append.mp hsorted).2.1
      exact Or.inr ((List.pairwise_cons.mp hbehind).1 c hcmem)

/-- A binder at the place comes into force behind it. -/
theorem Tracks.push {node : Node} {i : Nat} {b : Mention} (h : Tracks ms ⟨node, i⟩ Γ bs) (hb : b ∈ ms)
    (hbinder : b.isBinder = true) (hplace : b.place = ⟨node, i⟩)
    (hunique : ∀ c ∈ ms, c.isBinder = true → c.place = b.place → c = b) :
    Tracks ms ⟨node, i + 1⟩ (b.binder :: Γ) (b :: bs) := by
  obtain ⟨hscope, hinForce, hsorted⟩ := h
  refine ⟨?_, fun c => ?_, List.pairwise_cons.mpr ⟨fun c hc => ?_, hsorted⟩⟩
  · rw [List.map_cons, Mention.binderAt_own (by rw [hplace]), hscope]
  · -- one place further right there is one binder more
    have hstep : c.place.Before ⟨node, i + 1⟩ ↔ c.place.Before ⟨node, i⟩ ∨ c.place = ⟨node, i⟩ := by
      obtain ⟨cnode, cindex⟩ : Place := c.place
      simp only [Place.Before, Place.mk.injEq]
      constructor
      · rintro (hwithin | ⟨heq, hlt⟩)
        · exact Or.inl (Or.inl hwithin)
        · by_cases hi : cindex = i
          · exact Or.inr ⟨heq, hi⟩
          · exact Or.inl (Or.inr ⟨heq, by omega⟩)
      · rintro ((hwithin | ⟨heq, hlt⟩) | ⟨heq, hi⟩)
        · exact Or.inl hwithin
        · exact Or.inr ⟨heq, by omega⟩
        · exact Or.inr ⟨heq, by omega⟩
    rw [List.mem_cons, hinForce, hstep]
    constructor
    · rintro (rfl | ⟨hc, hcbinder, hbefore⟩)
      · exact ⟨hb, hbinder, Or.inr hplace⟩
      · exact ⟨hc, hcbinder, Or.inl hbefore⟩
    · rintro ⟨hc, hcbinder, hbefore | hcplace⟩
      · exact Or.inr ⟨hc, hcbinder, hbefore⟩
      · exact Or.inl (hunique c hc hcbinder (hcplace.trans hplace.symm))
  · rw [hplace]
    exact ((hinForce c).mp hc).2.2

/-- Within a node all that it binds is in force. -/
theorem Tracks.descend {node : Node} {i : Nat} (h : Tracks ms ⟨node, i⟩ Γ bs)
    (hlast : ∀ c ∈ ms, c.isBinder = true → c.place.node = node → c.place.index < i) (n : Nat) :
    Tracks ms ⟨n :: node, 0⟩ (bs.map (Mention.binderAt (n :: node))) bs := by
  refine ⟨rfl, fun c => ?_, h.sorted⟩
  rw [h.inForce, Place.before_child_iff, Place.Before]
  constructor
  · rintro ⟨hc, hbinder, ⟨hsuffix, -⟩ | ⟨heq, -⟩⟩
    · exact ⟨hc, hbinder, hsuffix⟩
    · exact ⟨hc, hbinder, heq ▸ List.suffix_refl _⟩
  · rintro ⟨hc, hbinder, hsuffix⟩
    refine ⟨hc, hbinder, ?_⟩
    by_cases heq : c.place.node = node
    · exact Or.inr ⟨heq, hlast c hc hbinder heq⟩
    · exact Or.inl ⟨hsuffix, heq⟩

end Tracks

end FunLang.Lint
