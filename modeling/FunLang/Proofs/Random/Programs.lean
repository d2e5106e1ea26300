import FunLang.Proofs.Random.Draws
import FunLang.Proofs.Syntax.Free
import FunLang.Proofs.Syntax.Parts
import FunLang.Random.Programs

set_option autoImplicit false

/-!
# Random programs keep to their constraints

Whatever word a random expression starts from, it is no deeper than the constraints allow, its integers
lie between the bounds, its constructors are those of the data declarations with no more arguments than
they have fields, and where closed expressions are wanted all its variables are bound
(`expression_keeps`).

Each generator is told how deep its result may be and which names are in scope. `Fits` says that a
result keeps to both, and it holds for a node if it holds for what lies below it (`Fits.node`). So there
is one lemma for each generator, and the one for expressions is by induction on the depth.
-/

namespace FunLang.Random

namespace Constraints

/-- A pattern by itself keeps to the constraints: a number lies between the bounds, and a constructor is
known and has as many arguments as fields. -/
def AllowsPattern (c : Constraints) : Pattern → Prop
  | .int _ n => c.lower ≤ n ∧ n ≤ c.upper
  | .ctor _ k args => k ∈ c.ctors ∧ args.length = k.arity
  | .missing | .bool .. | .var .. => True

/-- An expression by itself keeps to the constraints: a number lies between the bounds, a constructor is
known and is applied to no more arguments than it has fields, and so do the patterns of a case
expression. -/
structure Allows (c : Constraints) (e : Expr) : Prop where
  int : ∀ pos n, e = .int pos n → c.lower ≤ n ∧ n ≤ c.upper
  ctor : ∀ pos k, e.head = .ctor pos k → k ∈ c.ctors ∧ e.argCount ≤ k.arity
  pattern : ∀ pos s alts, e = .cases pos s alts → ∀ a ∈ alts, ∀ p, a.pattern.Part p → c.AllowsPattern p

/-- An expression is at most so deep, all its parts keep to the constraints, and if it has to be closed
then its free names are in scope. -/
structure Fits (c : Constraints) (depth : Nat) (scope : List String) (e : Expr) : Prop where
  depth : e.depth ≤ depth
  parts : ∀ part, e.Part part → c.Allows part
  free : c.closed = true → ∀ x ∈ e.free, x ∈ scope

variable {c : Constraints} {d d' : Nat} {scope : List String} {e : Expr}

theorem Fits.deeper (h : c.Fits d scope e) (hd : d ≤ d') : c.Fits d' scope e :=
  ⟨h.depth.trans hd, h.parts, h.free⟩

theorem Fits.wider (h : c.Fits d scope e) (names : List String) : c.Fits d (scope ++ names) e :=
  ⟨h.depth, h.parts, fun hclosed x hx => List.mem_append_left names (h.free hclosed x hx)⟩

/-- A node fits if what lies below it does, each part with the names that are in scope there. -/
theorem Fits.node (hallows : c.Allows e) (hchildren : ∀ child ∈ e.children, ∃ inner, c.Fits d inner child)
    (hfree : c.closed = true → ∀ x ∈ e.free, x ∈ scope) : c.Fits (d + 1) scope e := by
  refine ⟨Expr.depth_le_succ_iff.mpr fun child hchild => ?_, ?_, hfree⟩
  · obtain ⟨inner, hfits⟩ := hchildren child hchild
    exact hfits.depth
  · refine Expr.forall_part_iff.mpr ⟨hallows, fun child hchild => ?_⟩
    obtain ⟨inner, hfits⟩ := hchildren child hchild
    exact hfits.parts

/-- A form other than numbers, constructors, applications and case expressions is always allowed. -/
theorem allows_of_plain (hhead : e.head = e) (hint : ∀ pos n, e ≠ .int pos n)
    (hctor : ∀ pos k, e ≠ .ctor pos k) (hcases : ∀ pos s alts, e ≠ .cases pos s alts) : c.Allows e :=
  ⟨fun pos n h => absurd h (hint pos n), fun pos k h => absurd (hhead ▸ h) (hctor pos k),
    fun pos s alts h => absurd h (hcases pos s alts)⟩

/-- A node that binds nothing fits if what lies below it does. -/
theorem Fits.plain (hallows : c.Allows e) (hchildren : ∀ child ∈ e.children, c.Fits d scope child)
    (hfree : ∀ x ∈ e.free, ∃ child ∈ e.children, x ∈ child.free) : c.Fits (d + 1) scope e := by
  refine .node hallows (fun child hchild => ⟨scope, hchildren child hchild⟩) fun hclosed x hx => ?_
  obtain ⟨child, hchild, hx⟩ := hfree x hx
  exact (hchildren child hchild).free hclosed x hx

end Constraints

open Constraints

variable {c : Constraints} {d : Nat} {scope : List String}

/-! ## Leaves -/

theorem fits_var {x : String} (h : c.closed = true → x ∈ scope) : c.Fits 1 scope (.var .unknown x) := by
  refine .node (allows_of_plain rfl ?_ ?_ ?_) ?_ ?_
  · simp
  · simp
  · simp
  · simp [Expr.children]
  · simpa [Expr.free] using h

theorem fits_ctor {k : Constructor} (h : k ∈ c.ctors) : c.Fits 1 scope (.ctor .unknown k) := by
  refine .node ⟨by simp, fun pos k' hk => ?_, by simp⟩ (by simp [Expr.children]) (by simp [Expr.free])
  simp only [Expr.head, Expr.ctor.injEq] at hk
  exact ⟨hk.2 ▸ h, by simp [Expr.argCount]⟩

theorem intExpr_fits (hc : c.lower ≤ c.upper) : Always (c.Fits 1 scope) (intExpr c) := by
  refine (always_number hc).bind fun n hn => always_pure ?_
  refine .node ⟨fun pos m hm => ?_, by simp [Expr.head], by simp⟩ (by simp [Expr.children])
    (by simp [Expr.free])
  simp only [Expr.int.injEq] at hm
  exact hm.2 ▸ hn

theorem variableOr_fits (hc : c.lower ≤ c.upper) : Always (c.Fits 1 scope) (variableOr c scope) := by
  unfold variableOr
  cases scope with
  | nil =>
      dsimp only
      split_ifs with hclosed
      · exact intExpr_fits hc
      · exact always_bind fun x => always_pure (fits_var fun h => absurd h hclosed)
  | cons x xs =>
      have hbound : Always (c.Fits 1 (x :: xs)) (do return .var .unknown (← choose x xs)) :=
        (always_choose x xs).bind fun y hy => always_pure (fits_var fun _ => hy)
      dsimp only
      split_ifs with hclosed
      · exact hbound
      · refine always_bind fun b => ?_
        split
        · exact hbound
        · exact always_bind fun y => always_pure (fits_var fun h => absurd h hclosed)

theorem leaf_fits (hc : c.lower ≤ c.upper) : Always (c.Fits 1 scope) (leaf c scope) := by
  refine always_bind fun n => ?_
  split
  · exact intExpr_fits hc
  · exact intExpr_fits hc
  · refine always_bind fun b => always_pure (.node (allows_of_plain rfl ?_ ?_ ?_) ?_ ?_)
    all_goals simp [Expr.children, Expr.free]
  · split
    · rename_i k ks hnullary
      refine (always_choose k ks).bind fun k' hk' => always_pure (fits_ctor ?_)
      rw [← hnullary] at hk'
      exact (List.mem_filter.mp hk').1
    · exact variableOr_fits hc
  · exact variableOr_fits hc

/-! ## Patterns -/

/-- All parts of a pattern keep to the constraints. -/
def KeepsPattern (c : Constraints) (p : Pattern) : Prop := ∀ q, p.Part q → c.AllowsPattern q

theorem keepsPattern_iff {p : Pattern} :
    KeepsPattern c p ↔ c.AllowsPattern p ∧ ∀ child ∈ p.children, KeepsPattern c child :=
  Pattern.forall_part_iff

theorem varPattern_keeps : Always (KeepsPattern c) varPattern :=
  always_bind fun _ => always_pure (keepsPattern_iff.mpr ⟨trivial, nofun⟩)

theorem patternOr_keeps (hc : c.lower ≤ c.upper) {compound : Gen Pattern}
    (h : Always (KeepsPattern c) compound) : Always (KeepsPattern c) (patternOr c compound) := by
  refine always_bind fun n => ?_
  split
  · exact (always_number hc).bind fun n hn => always_pure (keepsPattern_iff.mpr ⟨hn, nofun⟩)
  · exact always_bind fun b => always_pure (keepsPattern_iff.mpr ⟨trivial, nofun⟩)
  · exact h
  · exact varPattern_keeps

theorem pattern_keeps (hc : c.lower ≤ c.upper) (depth : Nat) :
    Always (KeepsPattern c) (pattern c depth) := by
  induction depth with
  | zero => exact patternOr_keeps hc varPattern_keeps
  | succ depth ih =>
      refine patternOr_keeps hc ?_
      split
      · exact varPattern_keeps
      · rename_i k ks hctors
        refine (always_choose k ks).bind fun k' hk' => ?_
        refine (always_mapM (fun _ => ih) k'.fields).bind fun args hargs => always_pure ?_
        exact keepsPattern_iff.mpr ⟨⟨hctors ▸ hk', hargs.1⟩, hargs.2⟩

theorem always_times {α : Type} {P : α → Prop} {g : Gen α} (hg : Always P g) (n : Nat) :
    Always (fun l => l.length = n ∧ ∀ a ∈ l, P a) (times n g) := by
  have h := always_mapM (fun _ => hg) (List.replicate n ())
  rwa [List.length_replicate] at h

/-! ## Expressions from those that are less deep -/

/-- An expression that fits and applies no constructor, so that it can be applied to any number of
arguments. -/
structure FitsCallee (c : Constraints) (depth : Nat) (scope : List String) (f : Expr) : Prop
    extends c.Fits depth scope f where
  head : ∀ pos k, f.head ≠ .ctor pos k

theorem mem_of_mem_concat {x y : String} (h : x ∈ scope ++ [y]) (hne : x ≠ y) : x ∈ scope := by
  rcases List.mem_append.mp h with h | h
  · exact h
  · exact absurd (List.mem_singleton.mp h) hne

theorem fits_app {f : Expr} {args : List Expr} (hf : FitsCallee c d scope f)
    (hargs : ∀ a ∈ args, c.Fits d scope a) : FitsCallee c (d + 1) scope (.app .unknown f args) := by
  refine ⟨.node ⟨by simp, fun pos k hk => absurd hk (hf.head pos k), by simp⟩ ?_ ?_, hf.head⟩
  · intro child hchild
    rcases List.mem_cons.mp hchild with rfl | hchild
    · exact ⟨scope, hf.toFits⟩
    · exact ⟨scope, hargs child hchild⟩
  · intro hclosed x hx
    rw [Expr.free, List.mem_append] at hx
    rcases hx with hx | hx
    · exact hf.free hclosed x hx
    · obtain ⟨a, ha, hx⟩ := Expr.exists_of_mem_freeAll hx
      exact (hargs a ha).free hclosed x hx

section Below

variable (hexpr : ∀ scope, Always (c.Fits d scope) (expr c d scope))
include hexpr

theorem fn_fits : Always (FitsCallee c (d + 1) scope) (fn c d scope) := by
  rw [fn]
  refine always_bind fun x => (hexpr (scope ++ [x])).bind fun body hbody => always_pure ?_
  refine ⟨.node (allows_of_plain rfl (by simp) (by simp) (by simp)) ?_ ?_, by simp [Expr.head]⟩
  · intro child hchild
    rw [List.mem_singleton.mp hchild]
    exact ⟨_, hbody⟩
  · intro hclosed y hy
    obtain ⟨hy, hne⟩ := List.mem_filter.mp hy
    exact mem_of_mem_concat (hbody.free hclosed y hy) (by simpa using hne)

theorem applied_fits (hd : 1 ≤ d) {k : Constructor} (hk : k ∈ c.ctors) {n : Nat} (hn : n ≤ k.arity) :
    Always (c.Fits (d + 1) scope) (do
      if n = 0 then return .ctor .unknown k
      else return .app .unknown (.ctor .unknown k) (← times n (expr c d scope))) := by
  split
  · exact always_pure ((fits_ctor hk).deeper (by omega))
  · refine (always_times (hexpr scope) n).bind fun args hargs => always_pure ?_
    refine .node ⟨by simp, fun pos k' hk' => ?_, by simp⟩ ?_ ?_
    · simp only [Expr.head, Expr.ctor.injEq] at hk'
      rw [← hk'.2]
      exact ⟨hk, by simp [Expr.argCount, hargs.1, hn]⟩
    · intro child hchild
      rcases List.mem_cons.mp hchild with rfl | hchild
      · exact ⟨scope, (fits_ctor hk).deeper hd⟩
      · exact ⟨scope, hargs.2 child hchild⟩
    · intro hclosed x hx
      rw [Expr.free, Expr.free, List.nil_append] at hx
      obtain ⟨a, ha, hx⟩ := Expr.exists_of_mem_freeAll hx
      exact (hargs.2 a ha).free hclosed x hx

theorem construct_fits (hd : 1 ≤ d) {k : Constructor} {ks : List Constructor}
    (hctors : c.ctors = k :: ks) :
    Always (c.Fits (d + 1) scope) (construct c d scope k ks) := by
  rw [construct]
  refine (always_choose k ks).bind fun k' hk' => ?_
  rw [← hctors] at hk'
  have hshort : ∀ short : Bool, Always (c.Fits (d + 1) scope) _ := fun short =>
    applied_fits hexpr hd hk' (n := if short then k'.arity - 1 else k'.arity) (by split <;> omega)
  dsimp only
  split
  · exact always_bind hshort
  · exact always_bind hshort

theorem cases_fits (hc : c.lower ≤ c.upper) : Always (c.Fits (d + 1) scope) (cases c d scope) := by
  rw [cases]
  have halt : Always (fun a : Alt => KeepsPattern c a.pattern ∧
      c.Fits d (scope ++ a.pattern.binders) a.body) (do
        let p ← pattern c 2
        return Alt.mk .unknown p (← expr c d (scope ++ p.binders))) :=
    (pattern_keeps hc 2).bind fun p hp => (hexpr _).bind fun e he => always_pure ⟨hp, he⟩
  refine (hexpr scope).bind fun s hs => always_bind fun n => ?_
  refine (always_times halt (n + 1)).bind fun alts halts => always_pure ?_
  refine .node ⟨by simp, by simp [Expr.head], fun pos s' alts' heq a ha => ?_⟩ ?_ ?_
  · simp only [Expr.cases.injEq] at heq
    rw [← heq.2.2] at ha
    exact (halts.2 a ha).1
  · intro child hchild
    rcases List.mem_cons.mp hchild with rfl | hchild
    · exact ⟨scope, hs⟩
    · obtain ⟨a, ha, rfl⟩ := List.mem_map.mp hchild
      exact ⟨_, (halts.2 a ha).2⟩
  · intro hclosed x hx
    rw [Expr.free, List.mem_append] at hx
    rcases hx with hx | hx
    · exact hs.free hclosed x hx
    · obtain ⟨a, ha, hx, hnot⟩ := Alt.exists_of_mem_free hx
      have hmem := (halts.2 a ha).2.free hclosed x hx
      exact (List.mem_append.mp hmem).resolve_right hnot

end Below

/-- What is drawn as a callee fits, and there is none only if there is no room for a function. -/
structure FitsCallee? (c : Constraints) (depth : Nat) (scope : List String) (callee : Option Expr) :
    Prop where
  fits : ∀ f, callee = some f → FitsCallee c depth scope f
  room : callee = none → depth < 2

theorem fitsCallee?_some {f : Expr} (h : FitsCallee c d scope f) : FitsCallee? c d scope (some f) :=
  ⟨fun _ hf => Option.some.inj hf ▸ h, nofun⟩

/-- With a callee an application is drawn, without one something simpler. -/
theorem applied?_fits (hc : c.lower ≤ c.upper) (hd : 1 ≤ d)
    (hexpr : ∀ scope, Always (c.Fits d scope) (expr c d scope)) (scope : List String)
    (callee : Option Expr) :
    FitsCallee? c d scope callee →
      Always (fun e => c.Fits (d + 1) scope e ∧ (2 ≤ d → FitsCallee c (d + 1) scope e)) (match callee with
      | none => leaf c scope
      | some f => do
        let n ← below 3
        return .app .unknown f (← times (n + 1) (expr c d scope))) := by
  intro hcallee
  cases callee with
  | none =>
      have hroom := hcallee.room rfl
      exact (leaf_fits hc).mono fun e he => ⟨he.deeper (by omega), fun h => by omega⟩
  | some f =>
      refine always_bind fun n => (always_times (hexpr scope) (n + 1)).bind fun args hargs => ?_
      have happ := fits_app (hcallee.fits f rfl) hargs.2
      exact always_pure ⟨happ.toFits, fun _ => happ⟩

theorem always_unless {p : Prop} [Decidable p] (percent : Nat) :
    Always (fun b => b = true → ¬ p) (if p then pure false else chance percent) := by
  split
  · exact always_pure nofun
  · rename_i hp
    exact always_bind fun _ => always_pure fun _ => hp

theorem app_fits (hc : c.lower ≤ c.upper) (d : Nat)
    (hexpr : ∀ d' ≤ d, 1 ≤ d' → ∀ scope, Always (c.Fits d' scope) (expr c d' scope)) (hd : 1 ≤ d)
    (scope : List String) :
    Always (fun e => c.Fits (d + 1) scope e ∧ (2 ≤ d → FitsCallee c (d + 1) scope e)) (app c d scope) := by
  induction d with
  | zero => omega
  | succ d ih =>
      have happly := applied?_fits hc hd (hexpr (d + 1) le_rfl hd) scope
      unfold app
      dsimp only
      refine (always_unless 50).bind fun named hnamed => ?_
      split
      · cases scope with
        | nil => exact absurd rfl (hnamed ‹_›)
        | cons x xs =>
            refine (always_choose x xs).bind fun y hy => ?_
            have hvar : FitsCallee c (d + 1) (x :: xs) (.var .unknown y) :=
              ⟨(fits_var fun _ => hy).deeper hd, by simp [Expr.head]⟩
            exact (always_pure (fitsCallee?_some hvar)).bind happly
      · cases d with
        | zero => exact (always_pure ⟨nofun, fun _ => by omega⟩).bind happly
        | succ d =>
            refine (always_unless 20).bind fun applied happlied => ?_
            split
            · -- the callee is an application with room for a callee of its own
              have hroom : ¬ d = 0 := happlied ‹_›
              refine (ih (fun d' hd' => hexpr d' (by omega)) (by omega)).bind fun f hf => ?_
              exact (always_pure (fitsCallee?_some (hf.2 (by omega)))).bind happly
            · refine (fn_fits (hexpr (d + 1) (by omega) (by omega))).bind fun f hf => ?_
              exact (always_pure (fitsCallee?_some hf)).bind happly

/-! ## All expressions -/

theorem let_fits {x : String} {bound : Expr} (hbound : c.Fits d (scope ++ [x]) bound)
    (hexpr : ∀ scope, Always (c.Fits d scope) (expr c d scope)) :
    Always (c.Fits (d + 1) scope) (do return .letIn .unknown x bound (← expr c d (scope ++ [x]))) := by
  refine (hexpr _).bind fun body hbody => always_pure (.node (allows_of_plain rfl ?_ ?_ ?_) ?_ ?_)
  · simp
  · simp
  · simp
  · simp only [Expr.children, List.forall_mem_cons, List.not_mem_nil, false_implies, implies_true, and_true]
    exact ⟨⟨_, hbound⟩, _, hbody⟩
  · intro hclosed y hy
    obtain ⟨hy, hne⟩ := List.mem_filter.mp hy
    refine mem_of_mem_concat ?_ (by simpa using hne)
    rcases List.mem_append.mp hy with hy | hy
    · exact hbound.free hclosed y hy
    · exact hbody.free hclosed y hy

/-- An expression is no deeper than it may be. -/
theorem expr_fits (hc : c.lower ≤ c.upper) (depth : Nat) (hd : 1 ≤ depth) (scope : List String) :
    Always (c.Fits depth scope) (expr c depth scope) := by
  induction depth using Nat.strong_induction_on generalizing scope with
  | _ depth ih =>
      unfold expr
      split
      · omega
      · exact leaf_fits hc
      · rename_i d
        have hsub : ∀ scope, Always (c.Fits (d + 1) scope) (expr c (d + 1) scope) := fun scope =>
          ih (d + 1) (by omega) (by omega) scope
        have happ : Always (c.Fits (d + 2) scope) (app c (d + 1) scope) :=
          (app_fits hc (d + 1) (fun d' hd' hpos => ih d' (by omega) hpos) (by omega) scope).mono
            fun e he => he.1
        have hbinary : Always (c.Fits (d + 2) scope) (do
            return .binary .unknown (← operator) (← expr c (d + 1) scope) (← expr c (d + 1) scope)) := by
          refine always_bind fun op => (hsub scope).bind fun l hl => (hsub scope).bind fun r hr => ?_
          refine always_pure (.plain (allows_of_plain rfl (by simp) (by simp) (by simp)) ?_ ?_)
          · simp [Expr.children, hl, hr]
          · simp [Expr.children, Expr.free]
        dsimp only
        refine always_bind fun n => ?_
        split
        · exact (leaf_fits hc).mono fun e he => he.deeper (by omega)
        · exact hbinary
        · exact hbinary
        · refine (hsub scope).bind fun t ht => (hsub scope).bind fun y hy => (hsub scope).bind fun e he => ?_
          refine always_pure (.plain (allows_of_plain rfl (by simp) (by simp) (by simp)) ?_ ?_)
          · simp [Expr.children, ht, hy, he]
          · simp [Expr.children, Expr.free]
        · exact (fn_fits hsub).mono fun e he => he.toFits
        · exact happ
        · refine always_bind fun x => ?_
          have hplain : Always (c.Fits (d + 2) scope) (do
              let bound ← expr c (d + 1) scope
              return .letIn .unknown x bound (← expr c (d + 1) (scope ++ [x]))) :=
            (hsub scope).bind fun bound hbound => let_fits (hbound.wider [x]) hsub
          split
          · exact (always_pure (P := (· = false)) rfl).bind fun b hb => by simpa [hb] using hplain
          · rename_i hroom
            refine always_bind fun b => ?_
            split
            · -- a function is one deeper than its body, and may refer to itself
              refine (fn_fits (ih d (by omega) (by omega))).bind fun bound hbound => ?_
              exact let_fits hbound.toFits hsub
            · exact hplain
        · exact cases_fits hsub hc
        · split
          · rename_i k ks hctors
            exact construct_fits hsub (by omega) hctors
          · exact happ
        · refine (hsub scope).bind fun e he => always_bind fun ty => ?_
          refine always_pure (.plain (allows_of_plain rfl (by simp) (by simp) (by simp)) ?_ ?_)
          · simp [Expr.children, he]
          · simp [Expr.children, Expr.free]

theorem Constraints.lower_le_upper (c : Constraints) : c.normalize.lower ≤ c.normalize.upper :=
  left_le_max c.lower c.upper

/-- Constraints that have been put right once stay as they are, and so do their declarations. -/
theorem Constraints.ctors_normalize (c : Constraints) : c.normalize.ctors = c.ctors := by
  have hdata : c.normalize.normalize.data = c.normalize.data := by
    show min (dataPool.length : Int) (max 0 (min dataPool.length (max 0 c.data))) = _
    simp only [normalize]
    omega
  simp only [Constraints.ctors, Constraints.decls, hdata]

/-- Whatever the constraints and the word are, a random expression keeps to the constraints: it is no
deeper than they say, each of its parts is allowed where the constructors are those that the program
declares, and if only closed expressions are wanted it has no free names. -/
theorem expression_keeps (c : Constraints) (word : UInt64) :
    ((expression c word).1.depth : Int) ≤ c.normalize.maxDepth ∧
    (∀ part, (expression c word).1.Part part → c.normalize.Allows part) ∧
    c.normalize.ctors = (program c word).1.ctors ∧
    (c.closed = true → (expression c word).1.free = []) := by
  have hdepth : 1 ≤ c.normalize.maxDepth := Int.le_max_left 1 c.maxDepth
  have hfits : c.normalize.Fits c.normalize.maxDepth.toNat [] (expression c word).1 :=
    expr_fits c.lower_le_upper _ (by omega) [] word
  have hle := hfits.depth
  refine ⟨by omega, hfits.parts, c.ctors_normalize, fun hclosed => ?_⟩
  exact List.eq_nil_iff_forall_not_mem.mpr fun x hx => List.not_mem_nil (hfits.free hclosed x hx)

end FunLang.Random
