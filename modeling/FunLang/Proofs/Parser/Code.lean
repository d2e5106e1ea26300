import FunLang.Parser.Programs
import Mathlib.Tactic

set_option autoImplicit false

/-!
# The parsers without their bounds

Parsers call each other, and each call lowers the bound on the depth of the calls. Here they are written
down without any bound, as codes: what a parser does by itself (`Basic`), which parser it calls
(`Call`), and how it goes on. The code of a call may call anything, also itself, so that a code need not
come to an end; what it means that it does is said in `Code.Runs`, which also notes the states that are
passed through.

A code can also be carried out with calls that are bounded (`Code.within`), and then it is the parser
with a bound that is larger by one (`Call.parser_succ`). So the codes are those of the parsers
themselves.
-/

namespace FunLang.Parser

/-! ## Codes -/

/-- What a parser does without calling another one that calls it back. -/
inductive Basic : Type → Type where
  | current : Basic Token
  | peek : Basic Token
  | check (k : TokenKind) : Basic Bool
  | advance : Basic Token
  | expect (k : TokenKind) : Basic Token
  | accept (k : TokenKind) : Basic Bool
  | ctor? (name : String) : Basic (Option Constructor)
  | complain (t : Token) (message : String) : Basic Unit
  | intLiteral (t : Token) (negative : Bool) : Basic Int64
  | binderName : Basic String
  | badAtom (t : Token) : Basic Expr
  | badPattern (t : Token) : Basic Pattern
  | declare (c : Constructor) : Basic Unit

/-- The parsers that call each other. -/
inductive Call : Type → Type where
  | type : Call Ty
  | atomicType : Call Ty
  | atomicTypes : Call (List Ty)
  | pattern : Call Pattern
  | atomicPattern : Call Pattern
  | atomicPatterns : Call (List Pattern)
  | expr : Call Expr
  | alternatives : Call (List Alt)
  | binary (min : Nat) : Call Expr
  | operators (min : Nat) (left : Expr) : Call Expr
  | application : Call Expr
  | atoms : Call (List Expr)
  | atom : Call Expr
  | importDecls : Call (List Import)
  | synchronize : Call Unit
  | constructors (owner : String) : Call (Option (List Constructor))
  | dataDecls : Call (List DataDecl)

/-- A parser as a sequence of what it does and what it calls, where each step may depend on the results
of those before it. -/
inductive Code (α : Type) : Type 1 where
  | done (a : α) : Code α
  | basic {β : Type} (b : Basic β) (next : β → Code α) : Code α
  | call {β : Type} (c : Call β) (next : β → Code α) : Code α

variable {α β : Type}

def Code.bind : Code α → (α → Code β) → Code β
  | .done a, f => f a
  | .basic b next, f => .basic b fun x => (next x).bind f
  | .call c next, f => .call c fun x => (next x).bind f

instance : Monad Code where
  pure := .done
  bind := Code.bind

instance : MonadLift Basic Code := ⟨fun b => .basic b .done⟩

instance : MonadLift Call Code := ⟨fun c => .call c .done⟩

/-- What a parser does by itself, as a parser. -/
@[simp] def Basic.parser : {α : Type} → Basic α → Parser α
  | _, .current => Parser.current
  | _, .peek => Parser.peek
  | _, .check k => Parser.check k
  | _, .advance => Parser.advance
  | _, .expect k => Parser.expect k
  | _, .accept k => Parser.accept k
  | _, .ctor? name => Parser.ctor? name
  | _, .complain t message => Parser.complain t message
  | _, .intLiteral t negative => Parser.intLiteral t negative
  | _, .binderName => Parser.binderName
  | _, .badAtom t => Parser.badAtom t
  | _, .badPattern t => Parser.badPattern t
  | _, .declare c => Parser.declare c

/-- The parser that is called, with a bound on the depth of its calls. -/
@[simp] def Call.parser (n : Nat) : {α : Type} → Call α → Parser α
  | _, .type => Parser.type n
  | _, .atomicType => Parser.atomicType n
  | _, .atomicTypes => Parser.atomicTypes n
  | _, .pattern => Parser.pattern n
  | _, .atomicPattern => Parser.atomicPattern n
  | _, .atomicPatterns => Parser.atomicPatterns n
  | _, .expr => Parser.expr n
  | _, .alternatives => Parser.alternatives n
  | _, .binary min => Parser.binary n min
  | _, .operators min left => Parser.operators n min left
  | _, .application => Parser.application n
  | _, .atoms => Parser.atoms n
  | _, .atom => Parser.atom n
  | _, .importDecls => Parser.importDecls n
  | _, .synchronize => Parser.synchronize n
  | _, .constructors owner => Parser.constructors n owner
  | _, .dataDecls => Parser.dataDecls n

/-- A code in which calls have a bound on the depth of their calls. -/
def Code.within (n : Nat) : Code α → Parser α
  | .done a => pure a
  | .basic b next => b.parser >>= fun x => (next x).within n
  | .call c next => c.parser n >>= fun x => (next x).within n

/-! ## The codes of the parsers -/

namespace Code

def importDecl : Code Import := do
  let t ← Basic.expect .kwImport
  let path ← Basic.expect .stringLit
  let _ ← Basic.expect .semicolon
  return ⟨stripQuotes path.literal, t.pos⟩

def dataDecl : Code (Option DataDecl) := do
  let t ← Basic.expect .kwData
  let name ← Basic.expect .ident
  if name.kind ≠ .ident then
    Call.synchronize
    return none
  else
    let _ ← Basic.expect .assign
    match ← Call.constructors name.text with
    | some cs =>
      let _ ← Basic.expect .semicolon
      return some ⟨name.text, cs, t.pos⟩
    | none =>
      Call.synchronize
      return none

def finish : Code Unit := do
  let _ ← Basic.accept .semicolon
  let t ← Basic.current
  if t.kind ≠ .eof then
    Basic.complain t s!"unexpected {t.describe} after expression"

def program : Code Program := do
  let imports ← Call.importDecls
  let data ← Call.dataDecls
  let t ← Basic.current
  if t.kind = .kwImport then
    Basic.complain t "imports must come before data declarations"
    return ⟨imports, data, .missing⟩
  else if t.kind = .eof then return ⟨imports, data, .missing⟩
  else
    let body ← Call.expr
    finish
    return ⟨imports, data, body⟩

def soleExpr : Code Expr := do
  let e ← Call.expr
  finish
  return e

def definition : Code (Option String × Expr) := do
  let t ← Basic.expect .kwLet
  let name ← Basic.binderName
  let _ ← Basic.expect .assign
  let bound ← Call.expr
  let k := (← Basic.current).kind
  if k = .eof ∨ k = .semicolon then return (some name, bound)
  else
    let _ ← Basic.expect .kwIn
    let body ← Call.expr
    return (none, .letIn t.pos name bound body)

def line : Code Line := do
  let data ← Call.dataDecls
  match (← Basic.current).kind with
  | .eof => return ⟨data, none, .missing⟩
  | .kwLet =>
    let (name, e) ← definition
    finish
    return ⟨data, name, e⟩
  | _ =>
    let e ← Call.expr
    finish
    return ⟨data, none, e⟩

end Code

/-- The code of the parser that is called. -/
def Call.body : {α : Type} → Call α → Code α
  | _, .type => do
    let param ← Call.atomicType
    if ← Basic.check .arrow then
      let arrow ← Basic.advance
      let result ← Call.type
      return .arrow arrow.pos param result
    else return param
  | _, .atomicType => do
    let t ← Basic.current
    match t.kind with
    | .intType | .boolType | .ident =>
      let _ ← Basic.advance
      return .name t.pos t.text
    | .lparen =>
      let _ ← Basic.advance
      let ty ← Call.type
      let _ ← Basic.expect .rparen
      return ty
    | _ =>
      Basic.complain t s!"expected a type, got {t.describe}"
      let _ ← Basic.advance
      return .name t.pos errorName
  | _, .atomicTypes => do
    if startsAtomicType (← Basic.current).kind then
      let t ← Call.atomicType
      let ts ← Call.atomicTypes
      return t :: ts
    else return []
  | _, .pattern => do
    let t ← Basic.current
    if t.kind = .ident then
      match ← Basic.ctor? t.text with
      | some c =>
        let _ ← Basic.advance
        let args ← Call.atomicPatterns
        return .ctor t.pos c args
      | none => Call.atomicPattern
    else Call.atomicPattern
  | _, .atomicPattern => do
    let t ← Basic.current
    match t.kind with
    | .intLit =>
      let _ ← Basic.advance
      return .int t.pos (← Basic.intLiteral t false)
    | .minus =>
      if (← Basic.peek).kind = .intLit then
        let _ ← Basic.advance
        let digits ← Basic.advance
        return .int t.pos (← Basic.intLiteral digits true)
      else Basic.badPattern t
    | .kwTrue =>
      let _ ← Basic.advance
      return .bool t.pos true
    | .kwFalse =>
      let _ ← Basic.advance
      return .bool t.pos false
    | .ident =>
      let _ ← Basic.advance
      match ← Basic.ctor? t.text with
      | some c => return .ctor t.pos c []
      | none => return .var t.pos t.text
    | .lparen =>
      let _ ← Basic.advance
      let p ← Call.pattern
      let _ ← Basic.expect .rparen
      return p
    | _ => Basic.badPattern t
  | _, .atomicPatterns => do
    if startsPattern (← Basic.current).kind then
      let p ← Call.atomicPattern
      let ps ← Call.atomicPatterns
      return p :: ps
    else return []
  | _, .expr => do
    match (← Basic.current).kind with
    | .kwLet =>
      let t ← Basic.expect .kwLet
      let name ← Basic.binderName
      let _ ← Basic.expect .assign
      let bound ← Call.expr
      let _ ← Basic.expect .kwIn
      let body ← Call.expr
      return .letIn t.pos name bound body
    | .lambda | .kwFun =>
      let t ← Basic.advance
      let param ← Basic.binderName
      let _ ← Basic.expect .arrow
      let body ← Call.expr
      return .fn t.pos param body
    | .kwIf =>
      let t ← Basic.expect .kwIf
      let test ← Call.expr
      let _ ← Basic.expect .kwThen
      let yes ← Call.expr
      let _ ← Basic.expect .kwElse
      let no ← Call.expr
      return .cond t.pos test yes no
    | .kwCase =>
      let t ← Basic.expect .kwCase
      let scrutinee ← Call.expr
      let _ ← Basic.expect .kwOf
      let _ ← Basic.accept .bar
      let alts ← Call.alternatives
      return .cases t.pos scrutinee alts
    | _ => Call.binary 1
  | _, .alternatives => do
    let t ← Basic.current
    let p ← Call.pattern
    let _ ← Basic.expect .arrow
    let body ← Call.expr
    if ← Basic.accept .bar then
      let alts ← Call.alternatives
      return .mk t.pos p body :: alts
    else return [.mk t.pos p body]
  | _, .binary min => do
    let left ← Call.application
    Call.operators min left
  | _, .operators min left => do
    let l := level (← Basic.current).kind
    if l = 0 ∨ l < min then return left
    else
      let op ← Basic.advance
      let right ← Call.binary (l + 1)
      Call.operators min (.binary op.pos (.ofKind op.kind) left right)
  | _, .application => do
    let func ← Call.atom
    if startsAtom (← Basic.current).kind then
      let args ← Call.atoms
      return .app func.pos func args
    else return func
  | _, .atoms => do
    if startsAtom (← Basic.current).kind then
      let a ← Call.atom
      let as ← Call.atoms
      return a :: as
    else return []
  | _, .atom => do
    let t ← Basic.current
    match t.kind with
    | .intLit =>
      let _ ← Basic.advance
      return .int t.pos (← Basic.intLiteral t false)
    | .minus =>
      if (← Basic.peek).kind = .intLit then
        let _ ← Basic.advance
        let digits ← Basic.advance
        return .int t.pos (← Basic.intLiteral digits true)
      else Basic.badAtom t
    | .kwTrue =>
      let _ ← Basic.advance
      return .bool t.pos true
    | .kwFalse =>
      let _ ← Basic.advance
      return .bool t.pos false
    | .ident =>
      let _ ← Basic.advance
      match ← Basic.ctor? t.text with
      | some c => return .ctor t.pos c
      | none => return .var t.pos t.text
    | .lparen =>
      let _ ← Basic.advance
      let inner ← Call.expr
      if ← Basic.check .colon then
        let colon ← Basic.advance
        let ty ← Call.type
        let _ ← Basic.expect .rparen
        return .annot colon.pos inner ty
      else
        let _ ← Basic.expect .rparen
        return inner
    | _ => Basic.badAtom t
  | _, .importDecls => do
    if ← Basic.check .kwImport then
      let i ← Code.importDecl
      let is ← Call.importDecls
      return i :: is
    else return []
  | _, .synchronize => do
    match (← Basic.current).kind with
    | .eof | .kwData | .kwImport => return ()
    | .semicolon =>
      let _ ← Basic.advance
    | _ =>
      let _ ← Basic.advance
      Call.synchronize
  | _, .constructors owner => do
    let t ← Basic.expect .ident
    if t.kind ≠ .ident then return none
    else
      let fields ← Call.atomicTypes
      let c : Constructor := ⟨t.text, fields, owner, t.pos⟩
      Basic.declare c
      if ← Basic.accept .bar then
        let cs ← Call.constructors owner
        return cs.map (c :: ·)
      else return some [c]
  | _, .dataDecls => do
    if ← Basic.check .kwData then
      let d ← Code.dataDecl
      let ds ← Call.dataDecls
      return d.toList ++ ds
    else return []

/-! ## Runs -/

/-- A code comes to an end: from the state `s` it leads through the states of `trail` to the result `a`
in the state `s'`. Calls are not bounded. -/
inductive Code.Runs : {α : Type} → Code α → State → (trail : List State) → α → State → Prop where
  | done {α : Type} (a : α) (s : State) : Runs (.done a) s [] a s
  | basic {α β : Type} {b : Basic β} {next : β → Code α} {s s' : State} {trail : List State} {a : α} :
      Runs (next (b.parser.run s).1) (b.parser.run s).2 trail a s' →
      Runs (.basic b next) s ((b.parser.run s).2 :: trail) a s'
  | call {α β : Type} {c : Call β} {next : β → Code α} {s s₁ s' : State} {trail trail' : List State}
      {x : β} {a : α} :
      Runs c.body s trail x s₁ → Runs (next x) s₁ trail' a s' →
      Runs (.call c next) s (trail ++ trail') a s'

/-- There is only one way to run a code. -/
theorem Code.Runs.unique {code : Code α} {s s₁ s₂ : State} {trail₁ trail₂ : List State} {a₁ a₂ : α}
    (h₁ : code.Runs s trail₁ a₁ s₁) (h₂ : code.Runs s trail₂ a₂ s₂) :
    trail₁ = trail₂ ∧ a₁ = a₂ ∧ s₁ = s₂ := by
  induction h₁ generalizing trail₂ s₂ with
  | done a s =>
      cases h₂
      exact ⟨rfl, rfl, rfl⟩
  | basic _ ih =>
      cases h₂ with
      | basic h₂ =>
          obtain ⟨rfl, rfl, rfl⟩ := ih h₂
          exact ⟨rfl, rfl, rfl⟩
  | call _ _ ihcall ihnext =>
      cases h₂ with
      | call hcall hnext =>
          obtain ⟨rfl, rfl, rfl⟩ := ihcall hcall
          obtain ⟨rfl, rfl, rfl⟩ := ihnext hnext
          exact ⟨rfl, rfl, rfl⟩

/-! ## Codes are the parsers -/

section Within

variable (n : Nat)

@[simp] theorem Code.within_pure (a : α) : (pure a : Code α).within n = pure a := rfl

@[simp] theorem Code.within_basic (b : Basic α) : (liftM b : Code α).within n = b.parser := bind_pure _

@[simp] theorem Code.within_call (c : Call α) : (liftM c : Code α).within n = c.parser n := bind_pure _

@[simp] theorem Code.within_bind (x : Code α) (f : α → Code β) :
    (x >>= f).within n = x.within n >>= fun a => (f a).within n := by
  induction x with
  | done a => rfl
  | basic b next ih => exact congrArg (b.parser >>= ·) (funext ih)
  | call c next ih => exact congrArg (c.parser n >>= ·) (funext ih)

@[simp] theorem Code.within_ite (p : Prop) [Decidable p] (x y : Code α) :
    (if p then x else y).within n = if p then x.within n else y.within n := apply_ite _ _ _ _

@[simp] theorem Code.within_importDecl : Code.importDecl.within n = Parser.importDecl := by
  simp [Code.importDecl, Parser.importDecl]

@[simp] theorem Code.within_dataDecl : Code.dataDecl.within n = Parser.dataDecl n := by
  simp only [Code.dataDecl, Parser.dataDecl, within_bind, within_basic, within_ite, within_call]
  refine bind_congr fun t => bind_congr fun name => ?_
  split
  · simp
  · refine bind_congr fun _ => bind_congr fun cs => ?_
    split <;> simp

@[simp] theorem Code.within_finish : Code.finish.within n = Parser.finish := by
  simp [Code.finish, Parser.finish]

@[simp] theorem Code.within_program : Code.program.within n = Parser.program n := by
  simp [Code.program, Parser.program]

@[simp] theorem Code.within_soleExpr : Code.soleExpr.within n = Parser.soleExpr n := by
  simp [Code.soleExpr, Parser.soleExpr]

@[simp] theorem Code.within_definition : Code.definition.within n = Parser.definition n := by
  simp [Code.definition, Parser.definition]

@[simp] theorem Code.within_line : Code.line.within n = Parser.line n := by
  simp only [Code.line, Parser.line, within_bind, within_basic, within_call]
  refine bind_congr fun data => bind_congr fun t => ?_
  split <;> simp [*]

end Within

/-- With a bound that is larger by one, a parser does what its code says, with the bound for its
calls. -/
theorem Call.parser_succ (n : Nat) (c : Call α) : c.parser (n + 1) = c.body.within n := by
  cases c with
  | type => simp [Call.body, Parser.type]
  | atomicType =>
      simp only [Call.parser, Parser.atomicType, Call.body, Code.within_bind, Code.within_basic]
      refine bind_congr fun t => ?_
      split <;> simp [*]
  | atomicTypes => simp [Call.body, Parser.atomicTypes]
  | pattern =>
      simp only [Call.parser, Parser.pattern, Call.body, Code.within_bind, Code.within_basic,
        Code.within_ite]
      refine bind_congr fun t => ?_
      split
      · refine bind_congr fun c => ?_
        split <;> simp
      · simp
  | atomicPattern =>
      simp only [Call.parser, Parser.atomicPattern, Call.body, Code.within_bind, Code.within_basic]
      refine bind_congr fun t => ?_
      split <;> simp [*]
      refine bind_congr fun _ => bind_congr fun c => ?_
      split <;> rfl
  | atomicPatterns => simp [Call.body, Parser.atomicPatterns]
  | expr =>
      simp only [Call.parser, Parser.expr, Call.body, Code.within_bind, Code.within_basic]
      refine bind_congr fun t => ?_
      split <;> simp [*]
  | alternatives => simp [Call.body, Parser.alternatives]
  | binary min => simp [Call.body, Parser.binary]
  | operators min left => simp [Call.body, Parser.operators]
  | application => simp [Call.body, Parser.application]
  | atoms => simp [Call.body, Parser.atoms]
  | atom =>
      simp only [Call.parser, Parser.atom, Call.body, Code.within_bind, Code.within_basic]
      refine bind_congr fun t => ?_
      split <;> simp [*]
      refine bind_congr fun _ => bind_congr fun c => ?_
      split <;> rfl
  | importDecls => simp [Call.body, Parser.importDecls]
  | synchronize =>
      simp only [Call.parser, Parser.synchronize, Call.body, Code.within_bind, Code.within_basic]
      refine bind_congr fun t => ?_
      split <;> simp [*]
  | constructors owner => simp [Call.body, Parser.constructors]
  | dataDecls => simp [Call.body, Parser.dataDecls]

end FunLang.Parser
