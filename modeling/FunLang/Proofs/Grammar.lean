import FunLang.Parser.Patterns
import Mathlib.Tactic

set_option autoImplicit false

/-!
# The grammar

Which sequences of tokens are types, patterns, expressions and programs, each with the tree it stands
for. The rules are those of the language description:

    program ::= { import STRING ; } { data NAME = ctor { | ctor } ; } [ expr [ ; ] ] EOF
    ctor    ::= NAME { atype }
    type    ::= atype [ -> type ]
    atype   ::= Int | Bool | NAME | ( type )
    expr    ::= let NAME = expr in expr | fun NAME -> expr | \NAME -> expr
              | if expr then expr else expr | case expr of [|] alt { | alt } | comparison
    alt     ::= pattern -> expr
    comparison     ::= additive       | comparison cmp additive
    additive       ::= multiplicative | additive sum multiplicative
    multiplicative ::= application    | multiplicative * application
    application    ::= head { atom }
    head    ::= atom | - INT
    atom    ::= INT | true | false | NAME | CONSTRUCTOR | ( expr [ : type ] )
    pattern  ::= CONSTRUCTOR { apattern } | apattern
    apattern ::= [-] INT | true | false | NAME | CONSTRUCTOR | ( pattern )

A name is a constructor if it is in the table `Γ` of those known, and a data declaration adds to the
table. The grammar is ambiguous: behind the body of an alternative that ends with a `case` of its own,
a bar may go on with the inner or with the outer `case`. The last argument of `IsExpr` tells whether
an expression ends with an open `case`, and the rules with `innermost := true` admit only the reading
in which every alternative belongs to the innermost `case` that is open.
-/

namespace FunLang.Grammar

/-! ## Types -/

/-- The tokens that are a type by themselves. -/
inductive NamesType : TokenKind → Prop where
  | int : NamesType .intType
  | bool : NamesType .boolType
  | name : NamesType .ident

mutual

inductive IsType : List Token → Ty → Prop where
  | atomic {ts : List Token} {t : Ty} (h : IsAtomicType ts t) : IsType ts t
  | arrow {ts us : List Token} {a : Token} {t u : Ty} (h : IsAtomicType ts t) (ha : a.kind = .arrow)
      (hu : IsType us u) : IsType (ts ++ a :: us) (.arrow a.pos t u)

inductive IsAtomicType : List Token → Ty → Prop where
  | name {t : Token} (ht : NamesType t.kind) : IsAtomicType [t] (.name t.pos t.text)
  | paren {l r : Token} {ts : List Token} {t : Ty} (hl : l.kind = .lparen) (h : IsType ts t)
      (hr : r.kind = .rparen) : IsAtomicType (l :: (ts ++ [r])) t

end

/-- A sequence of atomic types. -/
inductive AreAtomicTypes : List Token → List Ty → Prop where
  | nil : AreAtomicTypes [] []
  | cons {ts us : List Token} {t : Ty} {tys : List Ty} (h : IsAtomicType ts t)
      (hs : AreAtomicTypes us tys) : AreAtomicTypes (ts ++ us) (t :: tys)

/-! ## Literals -/

/-- A row of digits that stands for an integer of the language. -/
def IsInt (t : Token) (n : Int64) : Prop :=
  t.kind = .intLit ∧ n.toInt = Parser.digitsValue t.literal

/-- A row of digits that stands for the negative of an integer of the language. -/
def IsNegated (t : Token) (n : Int64) : Prop :=
  t.kind = .intLit ∧ n.toInt = - (Parser.digitsValue t.literal : Int)

section Names

variable (Γ : CtorTable)

/-- A name that no constructor has. -/
def IsVariable (t : Token) : Prop := t.kind = .ident ∧ Γ.find? t.text = none

/-- The name of a constructor. -/
def IsConstructor (t : Token) (c : Constructor) : Prop := t.kind = .ident ∧ Γ.find? t.text = some c

/-! ## Patterns -/

mutual

inductive IsPattern : List Token → Pattern → Prop where
  | ctor {t : Token} {c : Constructor} {ts : List Token} {ps : List Pattern} (ht : IsConstructor Γ t c)
      (hs : AreAtomicPatterns ts ps) : IsPattern (t :: ts) (.ctor t.pos c ps)
  | atomic {ts : List Token} {p : Pattern} (h : IsAtomicPattern ts p) : IsPattern ts p

inductive IsAtomicPattern : List Token → Pattern → Prop where
  | int {t : Token} {n : Int64} (ht : IsInt t n) : IsAtomicPattern [t] (.int t.pos n)
  | negated {m t : Token} {n : Int64} (hm : m.kind = .minus) (ht : IsNegated t n) :
      IsAtomicPattern [m, t] (.int m.pos n)
  | true {t : Token} (ht : t.kind = .kwTrue) : IsAtomicPattern [t] (.bool t.pos Bool.true)
  | false {t : Token} (ht : t.kind = .kwFalse) : IsAtomicPattern [t] (.bool t.pos Bool.false)
  | var {t : Token} (ht : IsVariable Γ t) : IsAtomicPattern [t] (.var t.pos t.text)
  | ctor {t : Token} {c : Constructor} (ht : IsConstructor Γ t c) :
      IsAtomicPattern [t] (.ctor t.pos c [])
  | paren {l r : Token} {ts : List Token} {p : Pattern} (hl : l.kind = .lparen) (h : IsPattern ts p)
      (hr : r.kind = .rparen) : IsAtomicPattern (l :: (ts ++ [r])) p

/-- A sequence of atomic patterns. -/
inductive AreAtomicPatterns : List Token → List Pattern → Prop where
  | nil : AreAtomicPatterns [] []
  | cons {ts us : List Token} {p : Pattern} {ps : List Pattern} (h : IsAtomicPattern ts p)
      (hs : AreAtomicPatterns us ps) : AreAtomicPatterns (ts ++ us) (p :: ps)

end

end Names

/-! ## Expressions -/

/-- The operators by their levels: comparisons, sums, products. -/
inductive IsOperator : Nat → TokenKind → BinOp → Prop where
  | lt : IsOperator 1 .lt .lt
  | gt : IsOperator 1 .gt .gt
  | le : IsOperator 1 .leq .le
  | ge : IsOperator 1 .geq .ge
  | add : IsOperator 2 .plus .add
  | sub : IsOperator 2 .minus .sub
  | mul : IsOperator 3 .star .mul

/-- The two ways to start a function. -/
inductive StartsFunction : TokenKind → Prop where
  | lambda : StartsFunction .lambda
  | word : StartsFunction .kwFun

/-- The bar that may stand before the first alternative. -/
inductive IsOptionalBar : List Token → Prop where
  | none : IsOptionalBar []
  | bar {b : Token} (hb : b.kind = .bar) : IsOptionalBar [b]

section Exprs

variable (Γ : CtorTable) (innermost : Bool)

mutual

/-- An expression. The last argument tells whether it ends with a `case` that is still open. -/
inductive IsExpr : List Token → Expr → Bool → Prop where
  | letIn {l x a i : Token} {ts us : List Token} {bound body : Expr} {o o' : Bool} (hl : l.kind = .kwLet)
      (hx : IsVariable Γ x) (ha : a.kind = .assign) (hbound : IsExpr ts bound o) (hi : i.kind = .kwIn)
      (hbody : IsExpr us body o') :
      IsExpr (l :: x :: a :: (ts ++ i :: us)) (.letIn l.pos x.text bound body) o'
  | fn {f x a : Token} {ts : List Token} {body : Expr} {o : Bool} (hf : StartsFunction f.kind)
      (hx : IsVariable Γ x) (ha : a.kind = .arrow) (hbody : IsExpr ts body o) :
      IsExpr (f :: x :: a :: ts) (.fn f.pos x.text body) o
  | cond {i t e : Token} {ts us vs : List Token} {test yes no : Expr} {o o' o'' : Bool}
      (hi : i.kind = .kwIf) (htest : IsExpr ts test o) (ht : t.kind = .kwThen) (hyes : IsExpr us yes o')
      (he : e.kind = .kwElse) (hno : IsExpr vs no o'') :
      IsExpr (i :: (ts ++ t :: (us ++ e :: vs))) (.cond i.pos test yes no) o''
  | cases {c f : Token} {ts bs us : List Token} {scrutinee : Expr} {alts : List Alt} {o : Bool}
      (hc : c.kind = .kwCase) (hs : IsExpr ts scrutinee o) (hf : f.kind = .kwOf) (hb : IsOptionalBar bs)
      (halts : AreAlts us alts) :
      IsExpr (c :: (ts ++ f :: (bs ++ us))) (.cases c.pos scrutinee alts) true
  | binary {ts : List Token} {e : Expr} (h : IsBinary 1 ts e) : IsExpr ts e false

/-- The alternatives of a `case`. The place of an alternative is that of its first token. -/
inductive AreAlts : List Token → List Alt → Prop where
  | one {p a : Token} {ts us : List Token} {pat : Pattern} {body : Expr} {o : Bool}
      (hp : IsPattern Γ (p :: ts) pat) (ha : a.kind = .arrow) (hbody : IsExpr us body o) :
      AreAlts (p :: (ts ++ a :: us)) [.mk p.pos pat body]
  | cons {p a b : Token} {ts us vs : List Token} {pat : Pattern} {body : Expr} {o : Bool}
      {alts : List Alt} (hp : IsPattern Γ (p :: ts) pat) (ha : a.kind = .arrow)
      (hbody : IsExpr us body o) (ho : innermost = true → o = false) (hb : b.kind = .bar)
      (halts : AreAlts vs alts) :
      AreAlts (p :: (ts ++ a :: (us ++ b :: vs))) (.mk p.pos pat body :: alts)

/-- An expression of operators from the given level on; level 4 is that of applications. -/
inductive IsBinary : Nat → List Token → Expr → Prop where
  | op {k : Nat} {ts us : List Token} {o : Token} {op : BinOp} {l r : Expr} (hl : IsBinary k ts l)
      (ho : IsOperator k o.kind op) (hr : IsBinary (k + 1) us r) :
      IsBinary k (ts ++ o :: us) (.binary o.pos op l r)
  | tighter {k : Nat} {ts : List Token} {e : Expr} (h : IsBinary (k + 1) ts e) : IsBinary k ts e
  | application {ts : List Token} {e : Expr} (h : IsApplication ts e) : IsBinary 4 ts e

inductive IsApplication : List Token → Expr → Prop where
  | head {ts : List Token} {e : Expr} (h : IsHead ts e) : IsApplication ts e
  | app {ts us : List Token} {f a : Expr} {as : List Expr} (hf : IsHead ts f)
      (has : AreAtoms us (a :: as)) : IsApplication (ts ++ us) (.app f.pos f (a :: as))

inductive IsHead : List Token → Expr → Prop where
  | atom {ts : List Token} {e : Expr} (h : IsAtom ts e) : IsHead ts e
  | negated {m t : Token} {n : Int64} (hm : m.kind = .minus) (ht : IsNegated t n) :
      IsHead [m, t] (.int m.pos n)

/-- The arguments of an application. -/
inductive AreAtoms : List Token → List Expr → Prop where
  | nil : AreAtoms [] []
  | cons {ts us : List Token} {a : Expr} {as : List Expr} (h : IsAtom ts a) (hs : AreAtoms us as) :
      AreAtoms (ts ++ us) (a :: as)

inductive IsAtom : List Token → Expr → Prop where
  | int {t : Token} {n : Int64} (ht : IsInt t n) : IsAtom [t] (.int t.pos n)
  | true {t : Token} (ht : t.kind = .kwTrue) : IsAtom [t] (.bool t.pos Bool.true)
  | false {t : Token} (ht : t.kind = .kwFalse) : IsAtom [t] (.bool t.pos Bool.false)
  | var {t : Token} (ht : IsVariable Γ t) : IsAtom [t] (.var t.pos t.text)
  | ctor {t : Token} {c : Constructor} (ht : IsConstructor Γ t c) : IsAtom [t] (.ctor t.pos c)
  | paren {l r : Token} {ts : List Token} {e : Expr} {o : Bool} (hl : l.kind = .lparen)
      (h : IsExpr ts e o) (hr : r.kind = .rparen) : IsAtom (l :: (ts ++ [r])) e
  | annot {l c r : Token} {ts us : List Token} {e : Expr} {t : Ty} {o : Bool} (hl : l.kind = .lparen)
      (h : IsExpr ts e o) (hc : c.kind = .colon) (ht : IsType us t) (hr : r.kind = .rparen) :
      IsAtom (l :: (ts ++ c :: (us ++ [r]))) (.annot c.pos e t)

end

variable {Γ innermost}

/-- What stands at a level may stand at a weaker one. -/
theorem IsBinary.weaken {j k : Nat} (hjk : j ≤ k) {ts : List Token} {e : Expr}
    (h : IsBinary Γ innermost k ts e) : IsBinary Γ innermost j ts e := by
  induction k, hjk using Nat.le_induction with
  | base => exact h
  | succ k _ ih => exact ih (.tighter h)

end Exprs

/-! ## Programs -/

/-- An import of the file with the given path. -/
inductive IsImport : List Token → Import → Prop where
  | mk {i s e : Token} {path : List UInt8} (hi : i.kind = .kwImport) (hs : s.kind = .stringLit)
      (hpath : s.literal = 0x22 :: (path ++ [0x22])) (he : e.kind = .semicolon) :
      IsImport [i, s, e] ⟨path, i.pos⟩

inductive AreImports : List Token → List Import → Prop where
  | nil : AreImports [] []
  | cons {ts us : List Token} {i : Import} {is : List Import} (h : IsImport ts i) (hs : AreImports us is) :
      AreImports (ts ++ us) (i :: is)

/-- The constructors of a type, with the table before and after them. Each has a name that was not
known before it. -/
inductive AreConstructors (type : String) :
    CtorTable → List Token → List Constructor → CtorTable → Prop where
  | one {Γ : CtorTable} {x : Token} {ts : List Token} {fields : List Ty} (hx : IsVariable Γ x)
      (h : AreAtomicTypes ts fields) :
      AreConstructors type Γ (x :: ts) [⟨x.text, fields, type, x.pos⟩]
        (Γ.insert ⟨x.text, fields, type, x.pos⟩)
  | cons {Γ Γ' : CtorTable} {x b : Token} {ts us : List Token} {fields : List Ty} {cs : List Constructor}
      (hx : IsVariable Γ x) (h : AreAtomicTypes ts fields) (hb : b.kind = .bar)
      (hs : AreConstructors type (Γ.insert ⟨x.text, fields, type, x.pos⟩) us cs Γ') :
      AreConstructors type Γ (x :: (ts ++ b :: us)) (⟨x.text, fields, type, x.pos⟩ :: cs) Γ'

/-- A data declaration, with the table before and after it. -/
inductive IsData : CtorTable → List Token → DataDecl → CtorTable → Prop where
  | mk {Γ Γ' : CtorTable} {d x a e : Token} {ts : List Token} {cs : List Constructor}
      (hd : d.kind = .kwData) (hx : x.kind = .ident) (ha : a.kind = .assign)
      (hcs : AreConstructors x.text Γ ts cs Γ') (he : e.kind = .semicolon) :
      IsData Γ (d :: x :: a :: (ts ++ [e])) ⟨x.text, cs, d.pos⟩ Γ'

inductive AreData : CtorTable → List Token → List DataDecl → CtorTable → Prop where
  | nil {Γ : CtorTable} : AreData Γ [] [] Γ
  | cons {Γ Γ' Γ'' : CtorTable} {ts us : List Token} {d : DataDecl} {ds : List DataDecl}
      (h : IsData Γ ts d Γ') (hs : AreData Γ' us ds Γ'') : AreData Γ (ts ++ us) (d :: ds) Γ''

/-- The body of a program, which may be missing. -/
inductive IsBody (Γ : CtorTable) (innermost : Bool) : List Token → Expr → Prop where
  | missing : IsBody Γ innermost [] .missing
  | expr {ts : List Token} {e : Expr} {o : Bool} (h : IsExpr Γ innermost ts e o) :
      IsBody Γ innermost ts e
  | terminated {ts : List Token} {s : Token} {e : Expr} {o : Bool} (h : IsExpr Γ innermost ts e o)
      (hs : s.kind = .semicolon) : IsBody Γ innermost (ts ++ [s]) e

/-- A program, read with the constructors of `Γ` known from elsewhere. -/
inductive IsProgram (Γ : CtorTable) (innermost : Bool) : List Token → Program → Prop where
  | mk {Γ' : CtorTable} {ts us vs : List Token} {z : Token} {is : List Import} {ds : List DataDecl}
      {e : Expr} (his : AreImports ts is) (hds : AreData Γ us ds Γ') (he : IsBody Γ' innermost vs e)
      (hz : z.kind = .eof) : IsProgram Γ innermost (ts ++ (us ++ (vs ++ [z]))) ⟨is, ds, e⟩

end FunLang.Grammar
