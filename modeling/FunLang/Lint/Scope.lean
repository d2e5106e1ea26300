import FunLang.Lint.Naming
import FunLang.Lint.Reachability

set_option autoImplicit false

/-!
# Scopes

A scope is the list of the binders that are in force, the innermost first. What is found under a
scope is of two kinds: warnings, in the order in which they come up, and the binders that are used.
A binder is known by its level, the number of binders around it.

A use inside the bound expression of a `let` is a recursive one and does not count as a use of that
`let`: while its bound expression is walked the binder is pending.
-/

namespace FunLang.Lint

inductive BinderKind where
  | letBinding
  | parameter
  | patternVariable
deriving DecidableEq, Repr, Inhabited

def BinderKind.name : BinderKind → String
  | .letBinding => "let binding"
  | .parameter => "parameter"
  | .patternVariable => "pattern variable"

structure Binder where
  name : String
  kind : BinderKind
  pos : Pos
  pending : Bool
deriving DecidableEq, Repr, Inhabited

abbrev Scope := List Binder

/-- The nearest binder of a name, with its level. -/
def Scope.find? : Scope → String → Option (Nat × Binder)
  | [], _ => none
  | b :: Γ, x => if b.name = x then some (Γ.length, b) else Scope.find? Γ x

/-- Warnings, and the levels of the binders that are used. -/
structure Findings where
  warnings : List Diagnostic
  uses : List Nat
deriving Inhabited

namespace Findings

def empty : Findings := ⟨[], []⟩

def ofWarnings (ws : List Diagnostic) : Findings := ⟨ws, []⟩

def append (a b : Findings) : Findings := ⟨a.warnings ++ b.warnings, a.uses ++ b.uses⟩

instance : Append Findings := ⟨append⟩

end Findings

/-- The findings about a variable. -/
def occurrence (Γ : Scope) (p : Pos) (x : String) : Findings :=
  match Γ.find? x with
  | some (level, b) => ⟨[], if b.pending then [] else [level]⟩
  | none =>
    .ofWarnings [(Diagnostic.warning p s!"variable '{x}' is not bound").withHint
      "evaluation fails with UnboundVariable when this is reached"]

/-- The warnings about a new binder: its name, and whether it hides another one. -/
def introduce (Γ : Scope) (b : Binder) : List Diagnostic :=
  (if isCamelCase b.name then []
    else [.warning b.pos s!"{b.kind.name} '{b.name}' should start with a lowercase letter"])
  ++ match Γ.find? b.name with
    | some (_, c) =>
      if isHidden b.name then []
      else [.warning b.pos (s!"{b.kind.name} '{b.name}' shadows the {c.kind.name} declared at "
        ++ s!"{c.pos.line}:{c.pos.column}")]
    | none => []

/-- The warning about a binder that is not used. -/
def unusedWarning (b : Binder) : Diagnostic :=
  (Diagnostic.warning b.pos s!"{b.kind.name} '{b.name}' is never used").withHint
    "remove it or rename it to start with '_'"

/-- Leaves the scope of the given binders, of which the first is at level `level`: reports those that
are not used. -/
def leave (level : Nat) (uses : List Nat) : List Binder → List Diagnostic
  | [] => []
  | b :: bs =>
    (if uses.contains level || isHidden b.name then [] else [unusedWarning b])
      ++ leave (level + 1) uses bs

/-- The findings about a part with binders of its own: the warnings about the binders, those of the
inside, and those of leaving. Only the binders around it are left as used. -/
def closing (level : Nat) (bs : List Binder) (opening : List Diagnostic) (inside : Findings) :
    Findings :=
  ⟨opening ++ inside.warnings ++ leave level inside.uses bs, inside.uses.filter (· < level)⟩

mutual

/-- The binders of a pattern from left to right and the warnings about the pattern, under the scope of
the binders around it. -/
def patternBinders (Γ : Scope) : Pattern → List Binder × List Diagnostic
  | .var p x =>
    let b : Binder := ⟨x, .patternVariable, p, false⟩
    ([b], introduce Γ b)
  | .ctor p c args =>
    let (bs, ws) := patternsBinders Γ args
    (bs, (if args.length ≠ c.arity then
      [.warning p (s!"pattern for '{c.name}' has {args.length} argument(s) but the constructor "
        ++ s!"declares {c.arity}; it never matches")]
      else []) ++ ws)
  | _ => ([], [])

def patternsBinders (Γ : Scope) : List Pattern → List Binder × List Diagnostic
  | [] => ([], [])
  | p :: ps =>
    let (bs, ws) := patternBinders Γ p
    let (cs, us) := patternsBinders (bs.reverse ++ Γ) ps
    (bs ++ cs, ws ++ us)

end

end FunLang.Lint
