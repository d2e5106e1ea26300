import FunLang.Proofs.Lint.Choice
import FunLang.Proofs.Lint.Tracking

set_option autoImplicit false

/-!
# Linting finds what names refer to

What linting has to say about scopes while it goes through an expression, with the binders in force in
hand and the used ones taken down, is what the places of all names tell (`program_scopeWarnings`).

The walk is followed from node to node, among the mentions `ms` of the whole expression. What it finds from
a node on are the warnings about the mentions there, and the levels of the binders that these use
(`Finds`). When it leaves a node that binds names, all mentions within the node have come up (`Owns`). So a
binder that is not used there is used nowhere.
-/

namespace FunLang.Lint

/-! ## Findings -/

/-- What is found about mentions, where the binders `bs` are in force around them: the warnings about
scopes, and which of these binders are used. -/
structure Finds (ms bs list : List Mention) (found : Findings) : Prop where
  warnings : (ofKind IsAboutScope found.warnings).Perm (list.flatMap (warningsAbout ms))
  uses : ∀ level, level ∈ found.uses ↔ ∃ m ∈ list, ∃ b, bs.reverse[level]? = some b ∧ Uses ms m b

section Finds

variable {ms bs list list' : List Mention} {found found' : Findings}

theorem Finds.append (h : Finds ms bs list found) (h' : Finds ms bs list' found') :
    Finds ms bs (list ++ list') (found ++ found') := by
  refine ⟨?_, fun level => ?_⟩
  · rw [Findings.warnings_append, ofKind_append, List.flatMap_append]
    exact h.warnings.append h'.warnings
  · rw [Findings.uses_append, List.mem_append, h.uses, h'.uses]
    simp only [List.mem_append, or_and_right, exists_or]

theorem Finds.ofWarnings {ds : List Diagnostic} (h : ∀ d ∈ ds, ¬ IsAboutScope d) :
    Finds ms bs [] (.ofWarnings ds) := by
  refine ⟨?_, by simp [Findings.ofWarnings]⟩
  rw [Findings.warnings_ofWarnings, ofKind_eq_nil h]
  rfl

theorem Finds.empty : Finds ms bs [] .empty := ⟨by simp [ofKind, Findings.empty], by simp [Findings.empty]⟩

theorem Finds.ofWarnings_append {ds : List Diagnostic} (hds : ∀ d ∈ ds, ¬ IsAboutScope d)
    (h : Finds ms bs list found) : Finds ms bs list (.ofWarnings ds ++ found) :=
  (Finds.ofWarnings hds).append h

end Finds

section Walk

variable {ms bs : List Mention} {Γ : Scope}

/-- A name that is used. -/
theorem finds_occurrence {m : Mention} (huse : m.isBinder = false) (h : Tracks ms m.place Γ bs) :
    Finds ms bs [m] (occurrence Γ m.pos m.name) := by
  have hmessage : [m].flatMap (warningsAbout ms) = unboundWarnings ms m := by simp [warningsAbout, huse]
  rcases h.find?_cases with ⟨hnone, hfree⟩ | ⟨level, b, hsome, hlevel, hrefers⟩
  · have hall : ¬ ∃ b ∈ ms, InForce ms m b := fun ⟨b, hb, hforce⟩ => hfree b hb hforce
    rw [occurrence_of_none hnone]
    refine ⟨?_, fun level => ⟨by simp [Findings.ofWarnings], ?_⟩⟩
    · rw [hmessage, unboundWarnings, if_neg hall, Findings.warnings_ofWarnings,
        ofKind_eq_self (by simpa using IsAboutScope.unbound m.pos m.name)]
    · rintro ⟨u, hu, b, -, -, hrefers, -⟩
      rw [List.mem_singleton.mp hu] at hrefers
      exact absurd hrefers.1 (hfree b hrefers.1.1)
  · have hsomeone : ∃ b ∈ ms, InForce ms m b := ⟨b, hrefers.1.1, hrefers.1⟩
    have hpending : (b.binderAt m.place.node).pending = true ↔ b.Pending m.place.node := by
      simp [Mention.binderAt]
    rw [occurrence_of_some hsome]
    refine ⟨?_, fun level' => ⟨fun hmem => ?_, ?_⟩⟩
    · rw [hmessage, unboundWarnings, if_pos hsomeone]
      rfl
    · split at hmem
      · simp at hmem
      · rename_i hnot
        rw [List.mem_singleton.mp hmem]
        exact ⟨m, by simp, b, hlevel, huse, hrefers, fun hp => hnot (hpending.mpr hp)⟩
    · rintro ⟨u, hu, c, hc, -, hrefers', hnot⟩
      rw [List.mem_singleton.mp hu] at hrefers' hnot
      obtain rfl := hrefers.unique hrefers'
      -- a binder has only one level
      have hbound := (List.getElem?_eq_some_iff.mp hlevel).1
      have heq : level = level' :=
        (List.getElem?_inj hbound (List.nodup_reverse.mpr h.nodup)).mp (hlevel.trans hc.symm)
      rw [if_neg fun hp => hnot (hpending.mp hp), heq]
      exact List.mem_singleton_self _

/-- A name that is bound. -/
theorem ofKind_introduce {b : Mention} (h : Tracks ms b.place Γ bs) :
    ofKind IsAboutScope (introduce Γ b.binder) = shadowWarnings ms b := by
  obtain ⟨ds, hplain, hintroduce⟩ := exists_introduce_eq Γ b.binder
  rw [hintroduce, ofKind_append, ofKind_eq_nil fun d hd => (hplain d hd).1, List.nil_append,
    shadowing, shadowWarnings, Mention.binder_name]
  rcases h.find?_cases with ⟨hnone, hfree⟩ | ⟨level, c, hsome, -, hrefers⟩
  · have hfind : ms.find? (RefersTo ms b ·) = none := by
      rw [List.find?_eq_none]
      intro c hc hrefers
      exact hfree c hc (of_decide_eq_true hrefers).1
    rw [hnone, hfind]
    simp [ofKind]
  · rw [hsome, find?_refersTo hrefers]
    by_cases hhidden : isHidden b.name = true
    · simp [hhidden, ofKind]
    · simp only [hhidden]
      exact ofKind_eq_self (by simpa using IsAboutScope.shadow b.binder (c.binderAt b.place.node))

/-! ## Rows of binders -/

/-- Binders at a node next to each other, the first of which has number `i`. No other binder among the
mentions is at one of their places. -/
structure Row (ms : List Mention) (node : Node) (i : Nat) (row : List Mention) : Prop where
  place : ∀ (j : Nat) (b : Mention), row[j]? = some b → b.place = ⟨node, i + j⟩
  isBinder : ∀ b ∈ row, b.isBinder = true
  subset : row ⊆ ms
  unique : ∀ b ∈ row, ∀ c ∈ ms, c.isBinder = true → c.place = b.place → c = b

theorem Row.tail {node : Node} {i : Nat} {b : Mention} {row : List Mention}
    (h : Row ms node i (b :: row)) : Row ms node (i + 1) row := by
  refine ⟨fun j c hc => ?_, fun c hc => h.isBinder c (by simp [hc]), fun c hc => h.subset (by simp [hc]),
    fun c hc => h.unique c (by simp [hc])⟩
  rw [h.place (j + 1) c hc, Nat.add_right_comm, Nat.add_assoc]

/-- The warnings about binders that are introduced one after the other. -/
def introduceAll : Scope → List Binder → List Diagnostic
  | _, [] => []
  | Γ, b :: bs => introduce Γ b ++ introduceAll (b :: Γ) bs

theorem introduceAll_append (Γ : Scope) (bs cs : List Binder) :
    introduceAll Γ (bs ++ cs) = introduceAll Γ bs ++ introduceAll (bs.reverse ++ Γ) cs := by
  induction bs generalizing Γ with
  | nil => rfl
  | cons b bs ih => simp [introduceAll, ih]

theorem Tracks.pushAll {node : Node} {i : Nat} {row : List Mention} (h : Tracks ms ⟨node, i⟩ Γ bs)
    (hrow : Row ms node i row) :
    Tracks ms ⟨node, i + row.length⟩ ((row.map Mention.binder).reverse ++ Γ) (row.reverse ++ bs) ∧
      ofKind IsAboutScope (introduceAll Γ (row.map Mention.binder)) = row.flatMap (shadowWarnings ms) := by
  induction row generalizing i Γ bs with
  | nil => exact ⟨h, by simp [introduceAll, ofKind]⟩
  | cons b row ih =>
      have hplace : b.place = ⟨node, i⟩ := hrow.place 0 b rfl
      have hpush := h.push (hrow.subset (by simp)) (hrow.isBinder b (by simp)) hplace
        (hrow.unique b (by simp))
      obtain ⟨htracks, hwarnings⟩ := ih hpush hrow.tail
      refine ⟨?_, ?_⟩
      · simpa [Nat.add_assoc, Nat.add_comm 1] using htracks
      · rw [List.map_cons, introduceAll, ofKind_append, hwarnings, List.flatMap_cons,
          ofKind_introduce (hplace ▸ h)]

/-! ## Patterns -/

/-- A variable of a pattern as linting introduces it. -/
def variableBinder (v : Pos × String) : Binder := ⟨v.2, .patternVariable, v.1, false⟩

theorem map_binder_patternMentions (node : Node) (p : Pattern) :
    (patternMentions node p).map Mention.binder = p.variables.map variableBinder := by
  have hfst : p.variables = p.variables.zipIdx.map Prod.fst := (List.zipIdx_map_fst 0 _).symm
  conv_rhs => rw [hfst]
  simp only [patternMentions, List.map_map]
  rfl

mutual

/-- The variables of a pattern are introduced from left to right. -/
theorem patternBinders_spec : ∀ (p : Pattern) (Γ : Scope),
    (patternBinders Γ p).1 = p.variables.map variableBinder ∧
      ofKind IsAboutScope (patternBinders Γ p).2
        = ofKind IsAboutScope (introduceAll Γ (p.variables.map variableBinder))
  | .var p x, Γ => ⟨rfl, by simp [patternBinders, Pattern.variables, introduceAll, variableBinder]⟩
  | .ctor p c args, Γ => by
      obtain ⟨hbinders, hwarnings⟩ := patternsBinders_spec args Γ
      refine ⟨hbinders, ?_⟩
      have hcount : ∀ d ∈ (if args.length ≠ c.arity then
          [Diagnostic.warning p (s!"pattern for '{c.name}' has {args.length} argument(s) but the constructor "
            ++ s!"declares {c.arity}; it never matches")] else []), ¬ IsAboutScope d := by
        intro d hd hscope
        split at hd
        · rw [List.mem_singleton.mp hd] at hscope
          exact hscope.not_isAboutChoice ⟨p, .wrongCount c args.length⟩
        · simp at hd
      simp only [patternBinders, Pattern.variables, ofKind_append, ofKind_eq_nil hcount,
        List.nil_append, hwarnings]
  | .int .., _ | .bool .., _ | .missing, _ => ⟨rfl, rfl⟩

theorem patternsBinders_spec : ∀ (ps : List Pattern) (Γ : Scope),
    (patternsBinders Γ ps).1 = (Pattern.variablesAll ps).map variableBinder ∧
      ofKind IsAboutScope (patternsBinders Γ ps).2
        = ofKind IsAboutScope (introduceAll Γ ((Pattern.variablesAll ps).map variableBinder))
  | [], _ => ⟨rfl, rfl⟩
  | p :: ps, Γ => by
      obtain ⟨hbinders, hwarnings⟩ := patternBinders_spec p Γ
      obtain ⟨hbinders', hwarnings'⟩ := patternsBinders_spec ps ((patternBinders Γ p).1.reverse ++ Γ)
      simp only [patternsBinders, Pattern.variablesAll, List.map_append, introduceAll_append,
        ofKind_append]
      rw [hwarnings, hwarnings', hbinders', hbinders]
      exact ⟨rfl, rfl⟩

end

/-! ## Leaving a node -/

/-- The binders of a row are reported as not used if no mention within their node uses them. -/
theorem ofKind_leave {row : List Mention} {level : Nat} {uses : List Nat}
    (h : ∀ (j : Nat) (b : Mention), row[j]? = some b → (level + j ∈ uses ↔ ∃ m ∈ ms, Uses ms m b)) :
    ofKind IsAboutScope (leave level uses (row.map Mention.binder)) = row.flatMap (unusedWarnings ms) := by
  induction row generalizing level with
  | nil => simp [leave, ofKind]
  | cons b row ih =>
      have hrest : ∀ (j : Nat) (c : Mention), row[j]? = some c →
          (level + 1 + j ∈ uses ↔ ∃ m ∈ ms, Uses ms m c) := by
        intro j c hc
        rw [← h (j + 1) c hc, Nat.add_assoc, Nat.add_comm 1]
      have hfirst : level ∈ uses ↔ ∃ m ∈ ms, Uses ms m b := h 0 b rfl
      rw [List.map_cons, leave, ofKind_append, ih hrest, List.flatMap_cons]
      congr 1
      by_cases hsilent : isHidden b.name = true ∨ ∃ m ∈ ms, Uses ms m b
      · have hcond : (uses.contains level || isHidden b.binder.name) = true := by
          simpa [hfirst, or_comm] using hsilent
        rw [if_pos hcond, unusedWarnings, if_pos hsilent]
        rfl
      · have hcond : ¬ (uses.contains level || isHidden b.binder.name) = true := by
          simpa [hfirst, or_comm] using hsilent
        rw [if_neg hcond, unusedWarnings, if_neg hsilent]
        exact ofKind_eq_self (by simpa using IsAboutScope.unused b.binder)

/-- A node with binders of its own: what is found within it, and about the binders. -/
theorem finds_closing {node : Node} {row list : List Mention} {opening : List Diagnostic}
    {found : Findings} (hrow : Row ms node 0 row) (howns : Owns ms node (row ++ list))
    (hopening : ofKind IsAboutScope opening = row.flatMap (shadowWarnings ms))
    (h : Finds ms (row.reverse ++ bs) list found) :
    Finds ms bs (row ++ list) (closing bs.length (row.map Mention.binder) opening found) := by
  have hreverse : (row.reverse ++ bs).reverse = bs.reverse ++ row := by simp
  have hnouse : ∀ m ∈ row, ∀ b, ¬ Uses ms m b := by
    intro m hm b huses
    exact absurd (hrow.isBinder m hm) (by simp [huses.1])
  have hused : ∀ (j : Nat) (b : Mention), row[j]? = some b →
      (bs.length + j ∈ found.uses ↔ ∃ m ∈ ms, Uses ms m b) := by
    intro j b hb
    have hlevel : (row.reverse ++ bs).reverse[bs.length + j]? = some b := by
      rw [hreverse, List.getElem?_append_right (by simp)]
      simpa using hb
    rw [h.uses]
    constructor
    · rintro ⟨m, hm, c, hc, huses⟩
      obtain rfl : b = c := Option.some.inj (hlevel.symm.trans hc)
      exact ⟨m, ((howns m).mp (List.mem_append_right _ hm)).1, huses⟩
    · rintro ⟨m, hm, huses⟩
      -- a use stands within the node, so that it has come up
      have hwithin : node <:+ m.place.node := by
        have hbefore := huses.2.1.1.2.2.2
        rw [hrow.place j b hb] at hbefore
        rcases hbefore with ⟨hsuffix, -⟩ | ⟨heq, -⟩
        · exact hsuffix
        · exact heq ▸ List.suffix_refl _
      rcases List.mem_append.mp ((howns m).mpr ⟨hm, hwithin⟩) with hmem | hmem
      · exact absurd huses (hnouse m hmem b)
      · exact ⟨m, hmem, b, hlevel, huses⟩
  refine ⟨?_, fun level => ?_⟩
  · have habout : row.flatMap (warningsAbout ms)
        = row.flatMap fun b => unusedWarnings ms b ++ shadowWarnings ms b := by
      refine List.flatMap_congr fun b hb => ?_
      simp [warningsAbout, hrow.isBinder b hb]
    have hleave := ofKind_leave hused
    calc ofKind IsAboutScope (closing bs.length (row.map Mention.binder) opening found).warnings
        = row.flatMap (shadowWarnings ms) ++ ofKind IsAboutScope found.warnings
            ++ row.flatMap (unusedWarnings ms) := by
          rw [closing, ofKind_append, ofKind_append, hopening, hleave]
      List.Perm _ (row.flatMap (unusedWarnings ms)
            ++ (row.flatMap (shadowWarnings ms) ++ ofKind IsAboutScope found.warnings)) :=
          List.perm_append_comm
      List.Perm _ (row.flatMap (warningsAbout ms) ++ ofKind IsAboutScope found.warnings) := by
          rw [← List.append_assoc, habout]
          exact (List.flatMap_append_perm row _ _).append_right _
      List.Perm _ ((row ++ list).flatMap (warningsAbout ms)) := by
          rw [List.flatMap_append]
          exact h.warnings.append_left _
  · have hinner : level < bs.length →
        ((row.reverse ++ bs).reverse[level]? = bs.reverse[level]?) := by
      intro hlt
      rw [hreverse, List.getElem?_append_left (by simpa using hlt)]
    rw [closing, List.mem_filter, h.uses, decide_eq_true_eq]
    constructor
    · rintro ⟨⟨m, hm, b, hb, huses⟩, hlt⟩
      exact ⟨m, List.mem_append_right _ hm, b, (hinner hlt).symm.trans hb, huses⟩
    · rintro ⟨m, hm, b, hb, huses⟩
      have hlt : level < bs.length := by simpa using (List.getElem?_eq_some_iff.mp hb).1
      rcases List.mem_append.mp hm with hm | hm
      · exact absurd huses (hnouse m hm b)
      · exact ⟨⟨m, hm, b, (hinner hlt).trans hb, huses⟩, hlt⟩

/-! ## The walk -/

/-- A single binder at a node. -/
theorem row_singleton {node : Node} {b : Mention} {list : List Mention} (hplace : b.place = ⟨node, 0⟩)
    (hbinder : b.isBinder = true) (howns : Owns ms node (b :: list))
    (hlist : Inside node 0 list) : Row ms node 0 [b] := by
  refine ⟨fun j c hc => ?_, by simpa using hbinder, ?_, fun c hc d hd _ hdplace => ?_⟩
  · cases j with
    | zero =>
        cases hc
        exact hplace
    | succ j => simp at hc
  · simpa using ((howns b).mp (by simp)).1
  · rw [List.mem_singleton.mp hc] at hdplace ⊢
    have hnode : d.place.node = node := by rw [hdplace, hplace]
    have hsplit : Owns ms node ([b] ++ list) := howns
    exact List.mem_singleton.mp (hsplit.mem_own hlist hd hnode)

theorem row_patternMentions {node : Node} {p : Pattern} {list : List Mention}
    (howns : Owns ms node (patternMentions node p ++ list))
    (hlist : Inside node 0 list) : Row ms node 0 (patternMentions node p) := by
  have hplace : ∀ (j : Nat) (b : Mention), (patternMentions node p)[j]? = some b →
      b.place = ⟨node, 0 + j⟩ ∧ b.isBinder = true := by
    intro j b hb
    simp only [patternMentions, List.getElem?_map, List.getElem?_zipIdx, Option.map_map,
      Option.map_eq_some_iff] at hb
    obtain ⟨v, -, rfl⟩ := hb
    exact ⟨rfl, rfl⟩
  have hindex : ∀ b ∈ patternMentions node p, ∃ j, (patternMentions node p)[j]? = some b := fun b hb =>
    List.mem_iff_getElem?.mp hb
  refine ⟨fun j b hb => (hplace j b hb).1, fun b hb => ?_, fun b hb => ?_, fun b hb c hc _ hcplace => ?_⟩
  · obtain ⟨j, hj⟩ := hindex b hb
    exact (hplace j b hj).2
  · exact ((howns b).mp (List.mem_append_left _ hb)).1
  · obtain ⟨j, hj⟩ := hindex b hb
    obtain ⟨k, hk⟩ := hindex c (howns.mem_own hlist hc (by rw [hcplace, (hplace j b hj).1]))
    -- two variables at one place have the same number
    have heq : 0 + k = 0 + j := by
      have hboth := (hplace k c hk).1.symm.trans (hcplace.trans (hplace j b hj).1)
      exact (Place.mk.inj hboth).2
    obtain rfl : k = j := by omega
    exact Option.some.inj (hk.symm.trans hj)

/-- Within a node its binders are in force before all others. -/
theorem Tracks.enter {node : Node} {row list : List Mention} (h : Tracks ms ⟨node, 0⟩ Γ bs)
    (hrow : Row ms node 0 row) (howns : Owns ms node (row ++ list))
    (hlist : Inside node 0 list) (n : Nat) :
    Tracks ms ⟨n :: node, 0⟩ ((row.map (Mention.binderAt (n :: node))).reverse ++ Γ) (row.reverse ++ bs) := by
  have hlast : ∀ c ∈ ms, c.isBinder = true → c.place.node = node → c.place.index < 0 + row.length := by
    intro c hc _ hnode
    obtain ⟨j, hj⟩ := List.mem_iff_getElem?.mp (howns.mem_own hlist hc hnode)
    have hindex : c.place.index = 0 + j := by rw [hrow.place j c hj]
    have hlt := (List.getElem?_eq_some_iff.mp hj).1
    omega
  have hscope : Γ = bs.map (Mention.binderAt (n :: node)) := by
    rw [h.scope]
    refine List.map_congr_left fun b hb => (Mention.binderAt_child ?_).symm
    have hbefore := ((h.inForce b).mp hb).2.2
    exact fun heq => (Place.before_zero_iff.mp hbefore).2 (List.cons.inj heq).2
  have hdescend := (h.pushAll hrow).1.descend hlast n
  rwa [List.map_append, List.map_reverse, ← hscope] at hdescend

/-- The scope of a node that binds nothing is the scope of its children. -/
theorem Tracks.children {node : Node} {list : List Mention} (h : Tracks ms ⟨node, 0⟩ Γ bs)
    (howns : Owns ms node list) (hlist : Inside node 0 list) :
    (∀ n, Tracks ms ⟨n :: node, 0⟩ Γ bs) ∧ OwnsFrom ms node 0 list := by
  have hrow : Row ms node 0 [] := ⟨by simp, by simp, by simp, by simp⟩
  have hsplit : Owns ms node ([] ++ list) := howns
  exact ⟨fun n => h.enter hrow hsplit hlist n, hsplit.children (by simp) hlist⟩

/-- A node that binds one name. -/
theorem Tracks.enter_binder {node : Node} {b : Mention} {list : List Mention}
    (h : Tracks ms ⟨node, 0⟩ Γ bs) (hplace : b.place = ⟨node, 0⟩) (hbinder : b.isBinder = true)
    (howns : Owns ms node (b :: list)) (hlist : Inside node 0 list) :
    (∀ n, Tracks ms ⟨n :: node, 0⟩ (b.binderAt (n :: node) :: Γ) (b :: bs)) ∧ OwnsFrom ms node 0 list := by
  have hrow := row_singleton hplace hbinder howns hlist
  have hsplit : Owns ms node ([b] ++ list) := howns
  refine ⟨fun n => h.enter hrow hsplit hlist n, hsplit.children ?_ hlist⟩
  simp [hplace]

theorem finds_binder {node : Node} {b : Mention} {list : List Mention} {found : Findings}
    (htracks : Tracks ms ⟨node, 0⟩ Γ bs) (hplace : b.place = ⟨node, 0⟩) (hbinder : b.isBinder = true)
    (howns : Owns ms node (b :: list)) (hlist : Inside node 0 list) (h : Finds ms (b :: bs) list found) :
    Finds ms bs (b :: list) (closing Γ.length [b.binder] (introduce Γ b.binder) found) := by
  have hrow := row_singleton hplace hbinder howns hlist
  have hopening : ofKind IsAboutScope (introduce Γ b.binder) = [b].flatMap (shadowWarnings ms) := by
    rw [ofKind_introduce (hplace ▸ htracks), List.flatMap_singleton]
  rw [htracks.length_eq]
  exact finds_closing hrow howns hopening h

mutual

/-- With the binders that are in force in its scope, the walk finds from a node on what there is to say
about the mentions there. -/
theorem finds_expr : ∀ (e : Expr) {node : Node} {Γ : Scope} {bs : List Mention},
    Tracks ms ⟨node, 0⟩ Γ bs → Owns ms node (mentions node e) →
      Finds ms bs (mentions node e) (expr Γ e)
  | .var p x, node, Γ, bs, htracks, _ =>
      finds_occurrence (m := ⟨x, p, ⟨node, 0⟩, none⟩) rfl htracks
  | .binary _ _ l r, node, Γ, bs, htracks, howns => by
      have hr := inside_mentions (Nat.le_refl 1) node r
      obtain ⟨hchild, hfrom⟩ := htracks.children howns
        ((inside_mentions (Nat.zero_le 0) node l).append (inside_mentions (Nat.zero_le 1) node r))
      obtain ⟨hownsl, hfrom⟩ := hfrom.split_mentions hr
      exact (finds_expr l (hchild 0) hownsl).append (finds_expr r (hchild 1) hfrom.last_mentions)
  | .cond _ c t e, node, Γ, bs, htracks, howns => by
      have he := inside_mentions (Nat.le_refl 2) node e
      have hte := (inside_mentions (Nat.le_refl 1) node t).append (inside_mentions (Nat.le_succ 1) node e)
      obtain ⟨hchild, hfrom⟩ := htracks.children howns
        ((inside_mentions (Nat.zero_le 0) node c).append
          ((inside_mentions (Nat.zero_le 1) node t).append (inside_mentions (Nat.zero_le 2) node e)))
      obtain ⟨hownsc, hfrom⟩ := hfrom.split_mentions hte
      obtain ⟨hownst, hfrom⟩ := hfrom.split_mentions he
      have hconst := Finds.ofWarnings_append (fun d hd => (isPlain_constantCondition c d hd).1)
        (finds_expr c (hchild 0) hownsc)
      rw [mentions, ← List.append_assoc]
      exact (hconst.append (finds_expr t (hchild 1) hownst)).append
        (finds_expr e (hchild 2) hfrom.last_mentions)
  | .fn p x body, node, Γ, bs, htracks, howns => by
      have hinside := inside_mentions (Nat.zero_le 0) node body
      obtain ⟨hchild, hfrom⟩ := htracks.enter_binder rfl rfl howns hinside
      have hbody := hchild 0
      rw [Mention.binderAt_of_kind (by simp)] at hbody
      exact finds_binder htracks rfl rfl howns hinside (finds_expr body hbody hfrom.last_mentions)
  | .app p f args, node, Γ, bs, htracks, howns => by
      have hargs := inside_mentionsAll (Nat.le_refl 1) node args
      obtain ⟨hchild, hfrom⟩ := htracks.children howns
        ((inside_mentions (Nat.zero_le 0) node f).append (inside_mentionsAll (Nat.zero_le 1) node args))
      obtain ⟨hownsf, hfrom⟩ := hfrom.split_mentions hargs
      have hover := Finds.ofWarnings_append (fun d hd => (isPlain_overApplied p f args d hd).1)
        (finds_expr f (hchild 0) hownsf)
      exact hover.append (finds_exprs args hchild hfrom)
  | .letIn p x bound body, node, Γ, bs, htracks, howns => by
      have hinside := (inside_mentions (Nat.zero_le 0) node bound).append
        (inside_mentions (Nat.zero_le 1) node body)
      obtain ⟨hchild, hfrom⟩ := htracks.enter_binder rfl rfl howns hinside
      obtain ⟨hownsb, hfrom⟩ := hfrom.split_mentions (inside_mentions (Nat.le_refl 1) node body)
      -- the binder is pending in the first child and not in the second
      have hbound := hchild 0
      have hbody := hchild 1
      rw [Mention.binderAt_bound (by rfl) (by rfl)] at hbound
      rw [Mention.binderAt_child (by simp), Mention.binderAt_own (by rfl)] at hbody
      exact finds_binder htracks rfl rfl howns hinside ((finds_expr bound hbound hownsb).append
        (finds_expr body hbody hfrom.last_mentions))
  | .annot _ e _, node, Γ, bs, htracks, howns => by
      have hownse : Owns ms node (mentions (0 :: node) e) := howns
      obtain ⟨hchild, hfrom⟩ := htracks.children hownse (inside_mentions (Nat.zero_le 0) node e)
      exact finds_expr e (hchild 0) hfrom.last_mentions
  | .cases _ s alts, node, Γ, bs, htracks, howns => by
      have halts := inside_mentionsAlts (Nat.le_refl 1) node alts
      obtain ⟨hchild, hfrom⟩ := htracks.children howns
        ((inside_mentions (Nat.zero_le 0) node s).append (inside_mentionsAlts (Nat.zero_le 1) node alts))
      obtain ⟨hownss, hfrom⟩ := hfrom.split_mentions halts
      have hunreachable : ∀ d ∈ unreachable alts, ¬ IsAboutScope d := fun d hd hscope =>
        hscope.not_isAboutChoice ((reported_unreachable alts).isAboutChoice d hd)
      have hs := (finds_expr s (hchild 0) hownss).append (Finds.ofWarnings hunreachable)
      rw [List.append_nil] at hs
      exact hs.append (finds_alternatives alts hchild hfrom)
  | .missing, _, _, _, _, _ | .int .., _, _, _, _, _ | .bool .., _, _, _, _, _ | .ctor .., _, _, _, _, _
  | .value _, _, _, _, _, _ | .within .., _, _, _, _, _ | .tying .., _, _, _, _, _
  | .custom .., _, _, _, _, _ | .wrapped .., _, _, _, _, _ => Finds.empty

theorem finds_exprs : ∀ (es : List Expr) {node : Node} {n : Nat} {Γ : Scope} {bs : List Mention},
    (∀ k, Tracks ms ⟨k :: node, 0⟩ Γ bs) → OwnsFrom ms node n (mentionsAll node n es) →
      Finds ms bs (mentionsAll node n es) (exprs Γ es)
  | [], _, _, _, _, _, _ => Finds.empty
  | e :: es, node, n, Γ, bs, htracks, hfrom => by
      obtain ⟨howns, hfrom⟩ := hfrom.split_mentions (inside_mentionsAll (Nat.le_refl _) node es)
      exact (finds_expr e (htracks n) howns).append (finds_exprs es htracks hfrom)

theorem finds_alternatives : ∀ (alts : List Alt) {node : Node} {n : Nat} {Γ : Scope} {bs : List Mention},
    (∀ k, Tracks ms ⟨k :: node, 0⟩ Γ bs) → OwnsFrom ms node n (mentionsAlts node n alts) →
      Finds ms bs (mentionsAlts node n alts) (alternatives Γ alts)
  | [], _, _, _, _, _, _ => Finds.empty
  | .mk _ p e :: alts, node, n, Γ, bs, htracks, hfrom => by
      have hwithin : ∀ m ∈ patternMentions (n :: node) p ++ mentions (0 :: n :: node) e,
          (n :: node) <:+ m.place.node := by
        intro m hm
        rcases List.mem_append.mp hm with hm | hm
        · rw [node_of_mem_patternMentions hm]
        · exact suffix_of_cons_suffix (suffix_of_mem_mentions hm)
      have hinside := inside_mentions (Nat.zero_le 0) (n :: node) e
      obtain ⟨howns, hfrom⟩ := hfrom.split hwithin (inside_mentionsAlts (Nat.le_refl _) node alts)
      have hrow := row_patternMentions howns hinside
      obtain ⟨hbinders, hwarnings⟩ := patternBinders_spec p Γ
      rw [← map_binder_patternMentions (n :: node)] at hbinders hwarnings
      -- no variable of a pattern is ever pending
      have hplain : (patternMentions (n :: node) p).map (Mention.binderAt (0 :: n :: node))
          = (patternBinders Γ p).1 := by
        rw [hbinders]
        refine List.map_congr_left fun m hm => Mention.binderAt_of_kind ?_ _
        simp [kind?_of_mem_patternMentions hm]
      have hbody := (htracks n).enter hrow howns hinside 0
      rw [hplain] at hbody
      have hownse := (howns.children (fun m => node_of_mem_patternMentions) hinside).last_mentions
      have hopening := hwarnings.trans ((htracks n).pushAll hrow).2
      have hfound := finds_closing hrow howns hopening (finds_expr e hbody hownse)
      rw [← hbinders, ← (htracks n).length_eq] at hfound
      exact hfound.append (finds_alternatives alts htracks hfrom)

end

end Walk

/-- **Linting knows what names refer to.** Its warnings about scopes are, up to their order, those that
the places of the names tell: one for each use that no binder is in force for, one for each binder that
nothing refers to, and one for each binder that hides another. -/
theorem program_scopeWarnings (p : Program) :
    (ofKind IsAboutScope (program p)).Perm (scopeWarnings p.body) := by
  have htracks : Tracks (mentions [] p.body) ⟨[], 0⟩ [] [] :=
    ⟨rfl, fun b => by simp [Place.before_zero_iff], .nil⟩
  have howns : Owns (mentions [] p.body) [] (mentions [] p.body) := fun m => by simp
  have hperm := ofKind_program_perm (fun d (hd : IsPlain d) => hd.1) p
  exact hperm.trans (finds_expr p.body htracks howns).warnings

end FunLang.Lint
