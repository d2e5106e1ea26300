import FunLang.Parser.Programs
import Mathlib.Tactic

set_option autoImplicit false

/-!
# What no parser undoes

A parser changes its state only by passing over the current token and by adding messages; the parsers of
declarations also add constructors to the table. Whatever holds between the states before and after each
of these steps, and can be chained, holds between the states before and after any parser (`Moves`). The
relation is left open here (`Stepwise`). Two that count are that messages stay (`State.Grows`), and that
all but declarations leave the table as it is.
-/

namespace FunLang.Parser

/-- A relation that holds for the single steps of a parser and for what is made up of them. -/
structure Stepwise (ρ : State → State → Prop) : Prop where
  refl : ∀ s, ρ s s
  trans : ∀ {s₁ s₂ s₃}, ρ s₁ s₂ → ρ s₂ s₃ → ρ s₁ s₃
  advance : ∀ s, ρ s s.advance
  report : ∀ s d, ρ s (s.report d)
  complain : ∀ s t message, ρ s (s.complain t message)

variable {α β : Type} {ρ : State → State → Prop}

/-- The relation holds between the states before and after a parser. -/
def Moves (ρ : State → State → Prop) (p : Parser α) : Prop := ∀ s, ρ s (p.run s).2

/-! ## Basic parsers -/

theorem Moves.bind {p : Parser α} {f : α → Parser β} (hρ : Stepwise ρ) (hp : Moves ρ p)
    (hf : ∀ a, Moves ρ (f a)) : Moves ρ (p >>= f) := fun s => hρ.trans (hp s) (hf _ _)

theorem moves_pure (hρ : Stepwise ρ) (a : α) : Moves ρ (pure a) := hρ.refl

theorem moves_current_bind {f : Token → Parser β} (h : ∀ t, Moves ρ (f t)) : Moves ρ (current >>= f) :=
  fun s => h s.current s

theorem moves_peek_bind {f : Token → Parser β} (h : ∀ t, Moves ρ (f t)) : Moves ρ (peek >>= f) :=
  fun s => h s.peek s

theorem moves_check_bind {k : TokenKind} {f : Bool → Parser β} (h : ∀ b, Moves ρ (f b)) :
    Moves ρ (check k >>= f) := fun s => h (s.current.kind == k) s

theorem moves_ctor?_bind {name : String} {f : Option Constructor → Parser β}
    (h : ∀ c, Moves ρ (f c)) : Moves ρ (ctor? name >>= f) := fun s => h (s.ctors.find? name) s

section Stepwise

variable (hρ : Stepwise ρ)
include hρ

theorem moves_advance : Moves ρ advance := hρ.advance

theorem moves_report (d : Diagnostic) : Moves ρ (report d) := fun s => hρ.report s d

theorem moves_complain (t : Token) (message : String) : Moves ρ (complain t message) := fun s =>
  hρ.complain s t message

theorem moves_expect (k : TokenKind) : Moves ρ (expect k) := by
  refine moves_current_bind fun t => ?_
  split
  · exact moves_advance hρ
  · exact (moves_complain hρ t _).bind hρ fun _ => moves_pure hρ t

theorem moves_accept (k : TokenKind) : Moves ρ (accept k) := by
  refine moves_check_bind fun b => ?_
  split
  · exact (moves_advance hρ).bind hρ fun _ => moves_pure hρ true
  · exact moves_pure hρ false

theorem moves_intLiteral (t : Token) (negative : Bool) : Moves ρ (intLiteral t negative) := by
  unfold intLiteral
  generalize (if negative then - (digitsValue t.literal : Int) else digitsValue t.literal) = i
  show Moves ρ (if minInt ≤ i ∧ i ≤ maxInt then pure (Int64.ofInt i) else _)
  split
  · exact moves_pure hρ _
  · exact (moves_report hρ _).bind hρ fun _ => moves_pure hρ 0

theorem moves_negated (f : Int64 → α) :
    Moves ρ (do let _ ← advance; let digits ← advance; return f (← intLiteral digits true)) := by
  refine (moves_advance hρ).bind hρ fun _ => (moves_advance hρ).bind hρ fun t => ?_
  exact (moves_intLiteral hρ t true).bind hρ fun n => moves_pure hρ (f n)

theorem moves_binderName : Moves ρ binderName := by
  refine (moves_expect hρ .ident).bind hρ fun t => ?_
  split
  · exact moves_pure hρ errorName
  · refine moves_ctor?_bind fun c => ?_
    split
    · exact (moves_complain hρ t _).bind hρ fun _ => moves_pure hρ t.text
    · exact moves_pure hρ t.text

theorem moves_badPattern (t : Token) : Moves ρ (badPattern t) := by
  refine (moves_complain hρ t _).bind hρ fun _ => moves_check_bind fun b => ?_
  split
  · exact (moves_advance hρ).bind hρ fun _ => moves_pure hρ _
  · exact moves_pure hρ _

theorem moves_badAtom (t : Token) : Moves ρ (badAtom t) := by
  refine (moves_complain hρ t _).bind hρ fun _ => moves_check_bind fun b => ?_
  split
  · exact (moves_advance hρ).bind hρ fun _ => moves_pure hρ _
  · exact moves_pure hρ _

/-! ## Types -/

mutual

theorem moves_type : ∀ n, Moves ρ (type n)
  | 0 => moves_pure hρ _
  | n + 1 => by
      rw [type]
      refine (moves_atomicType n).bind hρ fun t => moves_check_bind fun b => ?_
      split
      · refine (moves_advance hρ).bind hρ fun a => ?_
        exact (moves_type n).bind hρ fun u => moves_pure hρ _
      · exact moves_pure hρ t

theorem moves_atomicType : ∀ n, Moves ρ (atomicType n)
  | 0 => moves_pure hρ _
  | n + 1 => by
      rw [atomicType]
      refine moves_current_bind fun t => ?_
      have hname : Moves ρ (do let _ ← advance; return Ty.name t.pos t.text) :=
        (moves_advance hρ).bind hρ fun _ => moves_pure hρ _
      split
      · exact hname
      · exact hname
      · exact hname
      · refine (moves_advance hρ).bind hρ fun _ => (moves_type n).bind hρ fun ty => ?_
        exact (moves_expect hρ .rparen).bind hρ fun _ => moves_pure hρ ty
      · refine (moves_complain hρ t _).bind hρ fun _ => ?_
        exact (moves_advance hρ).bind hρ fun _ => moves_pure hρ _

end

theorem moves_atomicTypes : ∀ n, Moves ρ (atomicTypes n)
  | 0 => moves_pure hρ _
  | n + 1 => by
      rw [atomicTypes]
      refine moves_current_bind fun t => ?_
      split
      · refine (moves_atomicType hρ n).bind hρ fun ty => ?_
        exact (moves_atomicTypes n).bind hρ fun tys => moves_pure hρ _
      · exact moves_pure hρ _

/-! ## Patterns -/

mutual

theorem moves_pattern : ∀ n, Moves ρ (pattern n)
  | 0 => moves_pure hρ _
  | n + 1 => by
      rw [pattern]
      refine moves_current_bind fun t => ?_
      split
      · refine moves_ctor?_bind fun c => ?_
        split
        · refine (moves_advance hρ).bind hρ fun _ => ?_
          exact (moves_atomicPatterns n).bind hρ fun ps => moves_pure hρ _
        · exact moves_atomicPattern n
      · exact moves_atomicPattern n

theorem moves_atomicPattern : ∀ n, Moves ρ (atomicPattern n)
  | 0 => moves_pure hρ _
  | n + 1 => by
      rw [atomicPattern]
      refine moves_current_bind fun t => ?_
      split
      · refine (moves_advance hρ).bind hρ fun _ => ?_
        exact (moves_intLiteral hρ t false).bind hρ fun i => moves_pure hρ _
      · refine moves_peek_bind fun u => ?_
        split
        · exact moves_negated hρ (Pattern.int t.pos)
        · exact moves_badPattern hρ t
      · exact (moves_advance hρ).bind hρ fun _ => moves_pure hρ _
      · exact (moves_advance hρ).bind hρ fun _ => moves_pure hρ _
      · refine (moves_advance hρ).bind hρ fun _ => moves_ctor?_bind fun c => ?_
        split
        · exact moves_pure hρ _
        · exact moves_pure hρ _
      · refine (moves_advance hρ).bind hρ fun _ => (moves_pattern n).bind hρ fun p => ?_
        exact (moves_expect hρ .rparen).bind hρ fun _ => moves_pure hρ p
      · exact moves_badPattern hρ t

theorem moves_atomicPatterns : ∀ n, Moves ρ (atomicPatterns n)
  | 0 => moves_pure hρ _
  | n + 1 => by
      rw [atomicPatterns]
      refine moves_current_bind fun t => ?_
      split
      · refine (moves_atomicPattern n).bind hρ fun p => ?_
        exact (moves_atomicPatterns n).bind hρ fun ps => moves_pure hρ _
      · exact moves_pure hρ _

end

/-! ## Expressions -/

mutual

theorem moves_expr : ∀ n, Moves ρ (expr n)
  | 0 => moves_pure hρ _
  | n + 1 => by
      rw [expr]
      refine moves_current_bind fun t => ?_
      have hfunction : Moves ρ (do
          let t ← advance
          let param ← binderName
          let _ ← expect .arrow
          let body ← expr n
          return Expr.fn t.pos param body) := by
        refine (moves_advance hρ).bind hρ fun _ => (moves_binderName hρ).bind hρ fun _ => ?_
        refine (moves_expect hρ .arrow).bind hρ fun _ => (moves_expr n).bind hρ fun _ => ?_
        exact moves_pure hρ _
      split
      · refine (moves_expect hρ .kwLet).bind hρ fun _ => (moves_binderName hρ).bind hρ fun _ => ?_
        refine (moves_expect hρ .assign).bind hρ fun _ => (moves_expr n).bind hρ fun _ => ?_
        refine (moves_expect hρ .kwIn).bind hρ fun _ => (moves_expr n).bind hρ fun _ => ?_
        exact moves_pure hρ _
      · exact hfunction
      · exact hfunction
      · refine (moves_expect hρ .kwIf).bind hρ fun _ => (moves_expr n).bind hρ fun _ => ?_
        refine (moves_expect hρ .kwThen).bind hρ fun _ => (moves_expr n).bind hρ fun _ => ?_
        refine (moves_expect hρ .kwElse).bind hρ fun _ => (moves_expr n).bind hρ fun _ => ?_
        exact moves_pure hρ _
      · refine (moves_expect hρ .kwCase).bind hρ fun _ => (moves_expr n).bind hρ fun _ => ?_
        refine (moves_expect hρ .kwOf).bind hρ fun _ => (moves_accept hρ .bar).bind hρ fun _ => ?_
        exact (moves_alternatives n).bind hρ fun _ => moves_pure hρ _
      · exact moves_binary n 1

theorem moves_alternatives : ∀ n, Moves ρ (alternatives n)
  | 0 => moves_pure hρ _
  | n + 1 => by
      rw [alternatives]
      refine moves_current_bind fun t => (moves_pattern hρ n).bind hρ fun p => ?_
      refine (moves_expect hρ .arrow).bind hρ fun _ => (moves_expr n).bind hρ fun body => ?_
      refine (moves_accept hρ .bar).bind hρ fun b => ?_
      split
      · exact (moves_alternatives n).bind hρ fun _ => moves_pure hρ _
      · exact moves_pure hρ _

theorem moves_binary : ∀ n min, Moves ρ (binary n min)
  | 0, _ => moves_pure hρ _
  | n + 1, min => by
      rw [binary]
      exact (moves_application n).bind hρ fun left => moves_operators n min left

theorem moves_operators : ∀ n min left, Moves ρ (operators n min left)
  | 0, _, _ => moves_pure hρ _
  | n + 1, min, left => by
      rw [operators]
      refine moves_current_bind fun t => ?_
      dsimp only
      split
      · exact moves_pure hρ left
      · refine (moves_advance hρ).bind hρ fun op => (moves_binary n _).bind hρ fun right => ?_
        exact moves_operators n min _

theorem moves_application : ∀ n, Moves ρ (application n)
  | 0 => moves_pure hρ _
  | n + 1 => by
      rw [application]
      refine (moves_atom n).bind hρ fun func => moves_current_bind fun t => ?_
      split
      · exact (moves_atoms n).bind hρ fun as => moves_pure hρ _
      · exact moves_pure hρ func

theorem moves_atoms : ∀ n, Moves ρ (atoms n)
  | 0 => moves_pure hρ _
  | n + 1 => by
      rw [atoms]
      refine moves_current_bind fun t => ?_
      split
      · refine (moves_atom n).bind hρ fun a => ?_
        exact (moves_atoms n).bind hρ fun as => moves_pure hρ _
      · exact moves_pure hρ _

theorem moves_atom : ∀ n, Moves ρ (atom n)
  | 0 => moves_pure hρ _
  | n + 1 => by
      rw [atom]
      refine moves_current_bind fun t => ?_
      split
      · refine (moves_advance hρ).bind hρ fun _ => ?_
        exact (moves_intLiteral hρ t false).bind hρ fun i => moves_pure hρ _
      · refine moves_peek_bind fun u => ?_
        split
        · exact moves_negated hρ (Expr.int t.pos)
        · exact moves_badAtom hρ t
      · exact (moves_advance hρ).bind hρ fun _ => moves_pure hρ _
      · exact (moves_advance hρ).bind hρ fun _ => moves_pure hρ _
      · refine (moves_advance hρ).bind hρ fun _ => moves_ctor?_bind fun c => ?_
        split
        · exact moves_pure hρ _
        · exact moves_pure hρ _
      · refine (moves_advance hρ).bind hρ fun _ => (moves_expr n).bind hρ fun e => ?_
        refine moves_check_bind fun b => ?_
        split
        · refine (moves_advance hρ).bind hρ fun _ => (moves_type hρ n).bind hρ fun ty => ?_
          exact (moves_expect hρ .rparen).bind hρ fun _ => moves_pure hρ _
        · exact (moves_expect hρ .rparen).bind hρ fun _ => moves_pure hρ e
      · exact moves_badAtom hρ t

end

/-! ## Declarations and lines -/

theorem moves_synchronize : ∀ n, Moves ρ (synchronize n)
  | 0 => moves_pure hρ _
  | n + 1 => by
      rw [synchronize]
      refine moves_current_bind fun t => ?_
      split
      · exact moves_pure hρ _
      · exact moves_pure hρ _
      · exact moves_pure hρ _
      · exact (moves_advance hρ).bind hρ fun _ => moves_pure hρ _
      · exact (moves_advance hρ).bind hρ fun _ => moves_synchronize n

theorem moves_finish : Moves ρ finish := by
  refine (moves_accept hρ .semicolon).bind hρ fun _ => moves_current_bind fun t => ?_
  split
  · exact moves_complain hρ t _
  · exact moves_pure hρ _

theorem moves_definition (n : Nat) : Moves ρ (definition n) := by
  refine (moves_expect hρ .kwLet).bind hρ fun _ => (moves_binderName hρ).bind hρ fun _ => ?_
  refine (moves_expect hρ .assign).bind hρ fun _ => (moves_expr hρ n).bind hρ fun _ => ?_
  refine moves_current_bind fun t => ?_
  dsimp only
  split
  · exact moves_pure hρ _
  · refine (moves_expect hρ .kwIn).bind hρ fun _ => (moves_expr hρ n).bind hρ fun _ => ?_
    exact moves_pure hρ _

/-- What comes behind the constructors of the type `name`. -/
theorem moves_declared (n : Nat) (name t : Token) (cs : Option (List Constructor)) :
    Moves ρ (match cs with
      | some cs => do
        let _ ← expect .semicolon
        return some (DataDecl.mk name.text cs t.pos)
      | none => do
        synchronize n
        return none) := by
  cases cs with
  | none => exact (moves_synchronize hρ n).bind hρ fun _ => moves_pure hρ _
  | some cs => exact (moves_expect hρ .semicolon).bind hρ fun _ => moves_pure hρ _

variable (hinsert : ∀ (s : State) (c : Constructor), ρ s { s with ctors := s.ctors.insert c })
include hinsert

theorem moves_declare (c : Constructor) : Moves ρ (declare c) := by
  have hmodify : Moves ρ (modify fun s : State => { s with ctors := s.ctors.insert c }) := fun s =>
    hinsert s c
  refine moves_ctor?_bind fun c' => ?_
  split
  · exact (moves_report hρ _).bind hρ fun _ => hmodify
  · exact hmodify

theorem moves_constructors (type : String) : ∀ n, Moves ρ (constructors n type)
  | 0 => moves_pure hρ _
  | n + 1 => by
      rw [constructors]
      refine (moves_expect hρ .ident).bind hρ fun t => ?_
      split
      · exact moves_pure hρ _
      · refine (moves_atomicTypes hρ n).bind hρ fun _ => (moves_declare hρ hinsert _).bind hρ fun _ => ?_
        refine (moves_accept hρ .bar).bind hρ fun b => ?_
        split
        · exact (moves_constructors type n).bind hρ fun _ => moves_pure hρ _
        · exact moves_pure hρ _

theorem moves_dataDecl (n : Nat) : Moves ρ (dataDecl n) := by
  refine (moves_expect hρ .kwData).bind hρ fun t => (moves_expect hρ .ident).bind hρ fun x => ?_
  split
  · exact (moves_synchronize hρ n).bind hρ fun _ => moves_pure hρ _
  · refine (moves_expect hρ .assign).bind hρ fun _ => ?_
    exact (moves_constructors hρ hinsert x.text n).bind hρ (moves_declared hρ n x t)

theorem moves_dataDecls : ∀ n, Moves ρ (dataDecls n)
  | 0 => moves_pure hρ _
  | n + 1 => by
      rw [dataDecls]
      refine moves_check_bind fun b => ?_
      split
      · refine (moves_dataDecl hρ hinsert n).bind hρ fun d => ?_
        exact (moves_dataDecls n).bind hρ fun ds => moves_pure hρ _
      · exact moves_pure hρ _

end Stepwise

/-! ## Messages and constructors stay -/

/-- Messages stay, and a token counts as reported only if there is a message. -/
structure State.Grows (s s' : State) : Prop where
  diags : s.diags <+: s'.diags
  reported : (s.reported = true → s.diags ≠ []) → s'.reported = true → s'.diags ≠ []

theorem stepwise_grows : Stepwise State.Grows where
  refl s := ⟨List.prefix_rfl, id⟩
  trans h h' := ⟨h.diags.trans h'.diags, fun hs => h'.reported (h.reported hs)⟩
  advance s := by
    unfold State.advance
    split
    · exact ⟨List.prefix_rfl, id⟩
    · exact ⟨List.prefix_rfl, by simp⟩
  report s d := ⟨List.prefix_append s.diags [d], by simp [State.report]⟩
  complain s t message := by
    unfold State.complain
    split
    · exact ⟨List.prefix_rfl, id⟩
    · exact ⟨List.prefix_append s.diags _, by simp [State.report]⟩

theorem State.grows_insert (s : State) (c : Constructor) :
    s.Grows { s with ctors := s.ctors.insert c } :=
  ⟨List.prefix_rfl, id⟩

theorem stepwise_ctors : Stepwise fun s s' => s'.ctors = s.ctors where
  refl _ := rfl
  trans h h' := h'.trans h
  advance s := by
    unfold State.advance
    split <;> rfl
  report _ _ := rfl
  complain s t message := by
    unfold State.complain
    split <;> rfl

end FunLang.Parser
