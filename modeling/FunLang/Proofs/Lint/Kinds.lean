import FunLang.Lint
import Mathlib.Tactic

set_option autoImplicit false

/-!
# Kinds of warnings

The warnings of linting are about scopes, about alternatives that are not chosen, or about something
else. A warning is a text with a place, and a text can quote any name, so the kinds are told apart by what
surrounds the names: the first letters of a text, and for the warnings about binders its last one.
-/

namespace FunLang.Lint

@[simp] theorem Findings.warnings_append (a b : Findings) :
    (a ++ b).warnings = a.warnings ++ b.warnings := rfl

@[simp] theorem Findings.uses_append (a b : Findings) : (a ++ b).uses = a.uses ++ b.uses := rfl

@[simp] theorem Findings.warnings_ofWarnings (ds : List Diagnostic) :
    (Findings.ofWarnings ds).warnings = ds := rfl

open scoped Classical in
/-- The warnings of a kind. -/
noncomputable def ofKind (K : Diagnostic → Prop) (ds : List Diagnostic) : List Diagnostic := ds.filter (K ·)

section OfKind

variable {K : Diagnostic → Prop} {ds : List Diagnostic}

@[simp] theorem ofKind_append (ds ds' : List Diagnostic) :
    ofKind K (ds ++ ds') = ofKind K ds ++ ofKind K ds' :=
  List.filter_append ..

theorem ofKind_eq_nil (h : ∀ d ∈ ds, ¬ K d) : ofKind K ds = [] := by
  rw [ofKind, List.filter_eq_nil_iff]
  simpa using h

theorem ofKind_eq_self (h : ∀ d ∈ ds, K d) : ofKind K ds = ds := by
  rw [ofKind, List.filter_eq_self]
  simpa using h

end OfKind

theorem perm_program (p : Program) :
    (program p).Perm (p.data.flatMap dataNaming ++ (expr [] p.body).warnings) :=
  List.mergeSort_perm ..

/-! ## Warnings about scopes -/

/-- The warning about a variable that is not bound. -/
def unboundWarning (p : Pos) (x : String) : Diagnostic :=
  (Diagnostic.warning p s!"variable '{x}' is not bound").withHint
    "evaluation fails with UnboundVariable when this is reached"

/-- The warning about a binder that hides another one. -/
def shadowWarning (b c : Binder) : Diagnostic :=
  .warning b.pos (s!"{b.kind.name} '{b.name}' shadows the {c.kind.name} declared at "
    ++ s!"{c.pos.line}:{c.pos.column}")

inductive IsAboutScope : Diagnostic → Prop where
  | unbound (p : Pos) (x : String) : IsAboutScope (unboundWarning p x)
  | unused (b : Binder) : IsAboutScope (unusedWarning b)
  | shadow (b c : Binder) : IsAboutScope (shadowWarning b c)

theorem occurrence_of_none {Γ : Scope} {p : Pos} {x : String} (h : Γ.find? x = none) :
    occurrence Γ p x = .ofWarnings [unboundWarning p x] := by
  simp only [occurrence, h]
  rfl

theorem occurrence_of_some {Γ : Scope} {p : Pos} {x : String} {level : Nat} {b : Binder}
    (h : Γ.find? x = some (level, b)) : occurrence Γ p x = ⟨[], if b.pending then [] else [level]⟩ := by
  simp only [occurrence, h]

/-- The warning about a binder that hides one of a scope. -/
def shadowing (Γ : Scope) (b : Binder) : List Diagnostic :=
  match Γ.find? b.name with
  | some (_, c) => if isHidden b.name then [] else [shadowWarning b c]
  | none => []

/-! ## Warnings about alternatives -/

/-- Why an alternative is reported as one that is not chosen. -/
inductive Cause where
  /-- The alternative before it has a variable as its pattern. -/
  | afterVariable (x : String)
  | repeatedInt (n : Int64)
  | repeatedBool (b : Bool)
  | afterBooleans
  /-- In its pattern a constructor has `count` arguments, which is not what it declares. -/
  | wrongCount (c : Constructor) (count : Nat)
deriving DecidableEq

/-- The warning with a cause. -/
def Cause.warning (p : Pos) : Cause → Diagnostic
  | afterVariable x =>
    (Diagnostic.warning p "alternative is unreachable").withHint
      s!"the pattern '{x}' before it matches every value"
  | repeatedInt n => .warning p s!"alternative is unreachable: {n.toInt} is already matched"
  | repeatedBool b => .warning p s!"alternative is unreachable: {Layout.bool b} is already matched"
  | afterBooleans =>
    (Diagnostic.warning p "alternative is unreachable").withHint
      "both true and false are matched before it"
  | wrongCount c count =>
    .warning p (s!"pattern for '{c.name}' has {count} argument(s) but the constructor "
      ++ s!"declares {c.arity}; it never matches")

inductive IsAboutChoice : Diagnostic → Prop where
  | intro (p : Pos) (cause : Cause) : IsAboutChoice (cause.warning p)

/-! ## How texts begin and end -/

/-- The first letters of a text. -/
def opening (d : Diagnostic) : List Char := d.message.toList.take 9

/-- The last letter of a text. -/
def ending (d : Diagnostic) : Option Char := d.message.toList.getLast?

/-- The texts about binders. -/
def binderOpenings : List (List Char) :=
  ["let bindi".toList, "parameter".toList, "pattern v".toList]

/-- The texts about alternatives. -/
def choiceOpenings : List (List Char) := ["alternati".toList, "pattern f".toList]

theorem opening_binder (p : Pos) (k : BinderKind) (text : String) :
    opening (.warning p (k.name ++ " '" ++ text)) ∈ binderOpenings := by
  cases k <;> simp [opening, binderOpenings, Diagnostic.warning, BinderKind.name]

theorem ending_append (p : Pos) (before : String) {s : String} (h : s.toList ≠ []) :
    ending (.warning p (before ++ s)) = s.toList.getLast? := by
  simp only [ending, Diagnostic.warning, String.toList_append, List.getLast?_append]
  cases hs : s.toList.getLast? with
  | none => exact absurd (List.getLast?_eq_none_iff.mp hs) h
  | some c => rfl

theorem shadowWarning_eq (b c : Binder) :
    shadowWarning b c = .warning b.pos (b.kind.name ++ " '" ++ (b.name ++ "' shadows the " ++ c.kind.name
      ++ " declared at " ++ c.pos.line.repr ++ ":" ++ c.pos.column.repr)) := by
  simp [shadowWarning, toString, String.append_assoc]

theorem IsAboutScope.opening_mem {d : Diagnostic} (h : IsAboutScope d) :
    opening d ∈ "variable ".toList :: binderOpenings := by
  cases h with
  | unbound p x => simp [opening, unboundWarning, Diagnostic.warning, Diagnostic.withHint, toString]
  | unused b =>
      have hopening := opening_binder b.pos b.kind (b.name ++ "' is never used")
      rw [← String.append_assoc] at hopening
      exact List.mem_cons_of_mem _ hopening
  | shadow b c =>
      rw [shadowWarning_eq]
      exact List.mem_cons_of_mem _ (opening_binder _ _ _)

theorem IsAboutScope.ending_ne {d : Diagnostic} (h : IsAboutScope d) : ending d ≠ some 'r' := by
  cases h with
  | unbound p x =>
      show ending (.warning p ("variable '" ++ x ++ "' is not bound")) ≠ _
      rw [ending_append _ _ (by decide)]
      decide
  | unused b =>
      show ending (.warning b.pos (b.kind.name ++ " '" ++ b.name ++ "' is never used")) ≠ _
      rw [ending_append _ _ (by decide)]
      decide
  | shadow b c =>
      -- the last letter is a digit of the column
      have hdigits : c.pos.column.repr.toList ≠ [] := by
        rw [Nat.toList_repr]
        exact Nat.toDigits_ne_nil
      rw [shadowWarning_eq, ← String.append_assoc, ending_append _ _ hdigits, Nat.toList_repr]
      intro hlast
      have hdigit := Nat.isDigit_of_mem_toDigits (by omega) (by omega) (List.mem_of_getLast? hlast)
      exact absurd hdigit (by decide)

theorem IsAboutChoice.opening_mem {d : Diagnostic} (h : IsAboutChoice d) : opening d ∈ choiceOpenings := by
  obtain ⟨p, cause⟩ := h
  cases cause <;>
    simp [opening, choiceOpenings, Cause.warning, Diagnostic.warning, Diagnostic.withHint, toString]

theorem IsAboutScope.not_isAboutChoice {d : Diagnostic} (h : IsAboutScope d) : ¬ IsAboutChoice d := by
  have hapart : ∀ o ∈ "variable ".toList :: binderOpenings, o ∉ choiceOpenings := by decide
  exact fun hd => hapart _ h.opening_mem hd.opening_mem

/-! ## Warnings about something else -/

/-- A warning that is neither about scopes nor about alternatives. -/
def IsPlain (d : Diagnostic) : Prop := ¬ IsAboutScope d ∧ ¬ IsAboutChoice d

theorem isPlain_of_opening {d : Diagnostic}
    (h : opening d ∈ ["data type".toList, "construct".toList, "condition".toList]) : IsPlain d := by
  have hscope : ∀ o ∈ ["data type".toList, "construct".toList, "condition".toList],
      o ∉ "variable ".toList :: binderOpenings := by decide
  have hchoice : ∀ o ∈ ["data type".toList, "construct".toList, "condition".toList],
      o ∉ choiceOpenings := by decide
  exact ⟨fun hd => hscope _ h hd.opening_mem, fun hd => hchoice _ h hd.opening_mem⟩

theorem isPlain_dataNaming (d : DataDecl) : ∀ w ∈ dataNaming d, IsPlain w := by
  intro w h
  apply isPlain_of_opening
  rcases List.mem_append.mp h with h | h
  · split at h
    · simp at h
    · rw [List.mem_singleton.mp h]
      simp [opening, Diagnostic.warning, toString]
  · obtain ⟨c, -, rfl⟩ := List.mem_map.mp h
    simp [opening, Diagnostic.warning, toString]

theorem isPlain_constantCondition (e : Expr) : ∀ w ∈ constantCondition e, IsPlain w := by
  intro w h
  apply isPlain_of_opening
  unfold constantCondition at h
  split at h
  · rw [List.mem_singleton.mp h]
    simp [opening, Diagnostic.warning, Diagnostic.withHint, toString]
  · simp at h

theorem isPlain_overApplied (p : Pos) (f : Expr) (args : List Expr) :
    ∀ w ∈ overApplied p f args, IsPlain w := by
  intro w h
  apply isPlain_of_opening
  unfold overApplied at h
  split at h
  · split at h
    · rw [List.mem_singleton.mp h]
      simp [opening, Diagnostic.warning, toString]
    · simp at h
  · simp at h

/-- A warning about the name of a binder is not one about scopes: it ends differently. -/
theorem isPlain_naming (b : Binder) :
    IsPlain (.warning b.pos s!"{b.kind.name} '{b.name}' should start with a lowercase letter") := by
  constructor
  · intro h
    refine h.ending_ne ?_
    show ending (.warning b.pos
      (b.kind.name ++ " '" ++ b.name ++ "' should start with a lowercase letter")) = _
    rw [ending_append _ _ (by decide)]
    decide
  · intro h
    have hopening := opening_binder b.pos b.kind (b.name ++ "' should start with a lowercase letter")
    rw [← String.append_assoc] at hopening
    have hapart : ∀ o ∈ binderOpenings, o ∉ choiceOpenings := by decide
    exact hapart _ hopening h.opening_mem

/-- The warnings about the declarations of a program are plain ones. -/
theorem ofKind_program_perm {K : Diagnostic → Prop} (hK : ∀ d, IsPlain d → ¬ K d) (p : Program) :
    (ofKind K (program p)).Perm (ofKind K (expr [] p.body).warnings) := by
  have hdata : ofKind K (p.data.flatMap dataNaming) = [] := by
    refine ofKind_eq_nil fun d hd => ?_
    obtain ⟨decl, -, hd⟩ := List.mem_flatMap.mp hd
    exact hK d (isPlain_dataNaming decl d hd)
  have hperm : (ofKind K (program p)).Perm
      (ofKind K (p.data.flatMap dataNaming ++ (expr [] p.body).warnings)) :=
    (perm_program p).filter _
  rwa [ofKind_append, hdata, List.nil_append] at hperm

theorem exists_introduce_eq (Γ : Scope) (b : Binder) :
    ∃ ds, (∀ d ∈ ds, IsPlain d) ∧ introduce Γ b = ds ++ shadowing Γ b := by
  refine ⟨_, ?_, rfl⟩
  intro d hd
  split at hd
  · simp at hd
  · rw [List.mem_singleton.mp hd]
    exact isPlain_naming b

end FunLang.Lint
