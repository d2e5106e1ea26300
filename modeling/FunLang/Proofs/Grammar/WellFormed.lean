import FunLang.Proofs.Grammar.Lines
import FunLang.Proofs.Syntax.Tables
import FunLang.Proofs.Syntax.WellFormed

set_option autoImplicit false

/-!
# Phrases of the grammar are well-formed

The words among the tokens of a source text are names or the two names of types
(`Lexer.isProper_of_mem_tokenize`). A tree that the grammar gives to such tokens is therefore
well-formed: nothing is missing in it, every name in it can be written, and a name belongs to a
constructor or to a variable as the table says.
-/

namespace FunLang

/-! ## Words -/

/-- The text of a word is what its kind says. -/
structure Token.IsProper (t : Token) : Prop where
  name : t.kind = .ident → isName t.text = true
  int : t.kind = .intType → t.text = "Int"
  bool : t.kind = .boolType → t.text = "Bool"

theorem Token.isProper_of_ne {t : Token} (h : t.kind ∉ [.ident, .stringLit, .intType, .boolType]) :
    t.IsProper := by
  constructor <;> intro hk <;> simp [hk] at h

theorem Token.isProper_ofWord {t : Token} (hkind : t.kind = .ofWord t.text)
    (hword : Lexer.isWord t.text = true) : t.IsProper := by
  rw [TokenKind.ofWord] at hkind
  cases hk : TokenKind.keywords.lookup t.text with
  | none =>
      -- a word that is not reserved is a name
      rw [hk] at hkind
      have hname : isName t.text = true := by
        rw [isName, hword, TokenKind.isKeyword, hk]
        rfl
      constructor <;> intro hkind' <;> simp_all
  | some k =>
      rw [hk] at hkind
      obtain ⟨l₁, l₂, heq, -⟩ := List.lookup_eq_some_iff.mp hk
      have hmem : (t.text, t.kind) ∈ TokenKind.keywords := by
        rw [heq, hkind]
        simp
      constructor <;> intro hkind' <;> rw [hkind'] at hmem
      · simp [TokenKind.keywords] at hmem
      · simpa [TokenKind.keywords] using hmem
      · simpa [TokenKind.keywords] using hmem

namespace Lexer

theorem isWord_decode {b : UInt8} {bs : List UInt8} (hb : isLetter b = true)
    (hbs : bs.all isWordPart = true) : isWord (Text.decode (b :: bs)) = true := by
  have hascii : ∀ c ∈ b :: bs, c.toNat < 128 := by
    intro c hc
    refine toNat_lt_of_isWordPart ?_
    rcases List.mem_cons.mp hc with rfl | hc
    · simp [isWordPart, hb]
    · exact List.all_eq_true.mp hbs c hc
  rw [isWord, Text.encode_decode hascii]
  simp only [hb, hbs, Bool.and_self]

theorem isProper_lexeme (b : UInt8) (bs : List UInt8) (p : Pos) :
    Token.IsProper ⟨(lexeme b bs).kind, (lexeme b bs).literal, p⟩ := by
  unfold lexeme
  cases hs : symbol? b bs with
  | some symbol => exact Token.isProper_of_ne (fun h => symbol?_ne hs h)
  | none =>
      dsimp only
      split_ifs with hquote hletter hdigit
      · have hkind : (stringLexeme bs).kind = .stringLit ∨ (stringLexeme bs).kind = .illegal := by
          unfold stringLexeme
          split
          · exact Or.inr rfl
          · split_ifs
            · exact Or.inl rfl
            · exact Or.inr rfl
        constructor <;> intro hk <;> simp_all
      · exact Token.isProper_ofWord rfl (isWord_decode hletter List.all_takeWhile)
      · exact Token.isProper_of_ne (by simp [runLexeme])
      · exact Token.isProper_of_ne (by simp)

theorem isProper_of_mem_tokenize {source : List UInt8} {t : Token} (ht : t ∈ tokenize source) :
    t.IsProper :=
  forall_mem_tokensFrom (fun _ => Token.isProper_of_ne (by simp [Token.endAt]))
    (fun _ => Token.isProper_of_ne (by simp)) isProper_lexeme _ _ t ht

end Lexer

/-- A line whose constructors are new to the table, and whose definition or expression is well-formed
once they are known. -/
structure Parser.Line.IsWellFormedIn (Γ : CtorTable) (l : Parser.Line) : Prop where
  new : Γ.New ((l.data.flatMap DataDecl.ctors).map Constructor.name)
  name : ∀ x, l.name = some x → isBinder ((l.data.flatMap DataDecl.ctors).reverse ++ Γ) x = true
  content : l.name = none ∧ l.expr = .missing ∨
    l.expr.isWellFormed ((l.data.flatMap DataDecl.ctors).reverse ++ Γ) = true

namespace Grammar

/-! ## Types and patterns -/

mutual

theorem IsType.isWellFormed : ∀ {ts : List Token} {t : Ty}, IsType ts t → (∀ x ∈ ts, x.IsProper) →
    t.isWellFormed = true
  | _, _, .atomic h, hts => IsAtomicType.isWellFormed h hts
  | _, _, .arrow h _ hu, hts => by
      simp only [List.forall_mem_append, List.forall_mem_cons] at hts
      rw [Ty.isWellFormed, IsAtomicType.isWellFormed h hts.1, IsType.isWellFormed hu hts.2.2]
      rfl

theorem IsAtomicType.isWellFormed : ∀ {ts : List Token} {t : Ty}, IsAtomicType ts t →
    (∀ x ∈ ts, x.IsProper) → t.isWellFormed = true
  | _, _, @IsAtomicType.name x hx, hts => by
      have hproper := hts x List.mem_cons_self
      rw [Ty.isWellFormed]
      generalize hk : x.kind = k at hx
      cases hx with
      | int => simp [hproper.int hk]
      | bool => simp [hproper.bool hk]
      | name => simp [hproper.name hk]
  | _, _, .paren _ h _, hts => by
      simp only [List.forall_mem_append, List.forall_mem_cons] at hts
      exact IsType.isWellFormed h hts.2.1

end

theorem AreAtomicTypes.areWellFormed {ts : List Token} {tys : List Ty} (h : AreAtomicTypes ts tys)
    (hts : ∀ x ∈ ts, x.IsProper) : tys.all Ty.isWellFormed = true := by
  induction h with
  | nil => rfl
  | cons h _ ih =>
      rw [List.forall_mem_append] at hts
      rw [List.all_cons, h.isWellFormed hts.1, ih hts.2]
      rfl

variable {Γ : CtorTable} {innermost : Bool}

theorem IsVariable.isBinder {t : Token} (h : IsVariable Γ t) (ht : t.IsProper) :
    isBinder Γ t.text = true := by
  rw [FunLang.isBinder, ht.name h.1, CtorTable.contains, h.2]
  rfl

theorem IsConstructor.isKnown {t : Token} {c : Constructor} (h : IsConstructor Γ t c) (ht : t.IsProper) :
    c.isKnown Γ = true := by
  have hname : c.name = t.text := by simpa using List.find?_some h.2
  rw [Constructor.isKnown, hname, ht.name h.1, h.2]
  simp

mutual

theorem IsPattern.isWellFormed : ∀ {ts : List Token} {p : Pattern}, IsPattern Γ ts p →
    (∀ x ∈ ts, x.IsProper) → p.isWellFormed Γ = true
  | _, _, .ctor ht hs, hts => by
      rw [List.forall_mem_cons] at hts
      rw [Pattern.isWellFormed, ht.isKnown hts.1, AreAtomicPatterns.areWellFormed hs hts.2]
      rfl
  | _, _, .atomic h, hts => IsAtomicPattern.isWellFormed h hts

theorem IsAtomicPattern.isWellFormed : ∀ {ts : List Token} {p : Pattern}, IsAtomicPattern Γ ts p →
    (∀ x ∈ ts, x.IsProper) → p.isWellFormed Γ = true
  | _, _, .int _, _ | _, _, .negated _ _, _ | _, _, .true _, _ | _, _, .false _, _ => rfl
  | _, _, .var ht, hts => ht.isBinder (hts _ List.mem_cons_self)
  | _, _, .ctor ht, hts => by
      rw [Pattern.isWellFormed, ht.isKnown (hts _ List.mem_cons_self)]
      rfl
  | _, _, .paren _ h _, hts => by
      simp only [List.forall_mem_append, List.forall_mem_cons] at hts
      exact IsPattern.isWellFormed h hts.2.1

theorem AreAtomicPatterns.areWellFormed : ∀ {ts : List Token} {ps : List Pattern},
    AreAtomicPatterns Γ ts ps → (∀ x ∈ ts, x.IsProper) → Pattern.areWellFormed Γ ps = true
  | _, _, .nil, _ => rfl
  | _, _, .cons h hs, hts => by
      rw [List.forall_mem_append] at hts
      rw [Pattern.areWellFormed, IsAtomicPattern.isWellFormed h hts.1,
        AreAtomicPatterns.areWellFormed hs hts.2]
      rfl

end

/-! ## Expressions -/

theorem IsOperator.ne_unknown {k : Nat} {t : TokenKind} {op : BinOp} (h : IsOperator k t op) :
    (op != .unknown) = true := by
  cases h <;> rfl

mutual

theorem IsExpr.isWellFormed : ∀ {ts : List Token} {e : Expr} {o : Bool}, IsExpr Γ innermost ts e o →
    (∀ x ∈ ts, x.IsProper) → e.isWellFormed Γ = true
  | _, _, _, .letIn _ hx _ hbound _ hbody, hts => by
      simp only [List.forall_mem_append, List.forall_mem_cons] at hts
      obtain ⟨-, hname, -, hts, -, hus⟩ := hts
      rw [Expr.isWellFormed, hx.isBinder hname, IsExpr.isWellFormed hbound hts,
        IsExpr.isWellFormed hbody hus]
      rfl
  | _, _, _, .fn _ hx _ hbody, hts => by
      simp only [List.forall_mem_cons] at hts
      obtain ⟨-, hname, -, hts⟩ := hts
      rw [Expr.isWellFormed, hx.isBinder hname, IsExpr.isWellFormed hbody hts]
      rfl
  | _, _, _, .cond _ htest _ hyes _ hno, hts => by
      simp only [List.forall_mem_append, List.forall_mem_cons] at hts
      obtain ⟨-, hts, -, hus, -, hvs⟩ := hts
      rw [Expr.isWellFormed, IsExpr.isWellFormed htest hts, IsExpr.isWellFormed hyes hus,
        IsExpr.isWellFormed hno hvs]
      rfl
  | _, _, _, .cases _ hs _ _ halts, hts => by
      simp only [List.forall_mem_append, List.forall_mem_cons] at hts
      obtain ⟨-, hts, -, -, hus⟩ := hts
      obtain ⟨hne, hwf⟩ := AreAlts.areWellFormed halts hus
      rw [Expr.isWellFormed, hne, IsExpr.isWellFormed hs hts, hwf]
      rfl
  | _, _, _, .binary h, hts => IsBinary.isWellFormed h hts

theorem AreAlts.areWellFormed : ∀ {ts : List Token} {alts : List Alt}, AreAlts Γ innermost ts alts →
    (∀ x ∈ ts, x.IsProper) → (!alts.isEmpty) = true ∧ Alt.areWellFormed Γ alts = true
  | _, _, .one hp _ hbody, hts => by
      simp only [List.forall_mem_append, List.forall_mem_cons] at hts
      obtain ⟨hp', hts, -, hus⟩ := hts
      have hpat := hp.isWellFormed (List.forall_mem_cons.mpr ⟨hp', hts⟩)
      rw [Alt.areWellFormed, hpat, IsExpr.isWellFormed hbody hus]
      exact ⟨rfl, rfl⟩
  | _, _, .cons hp _ hbody _ _ halts, hts => by
      simp only [List.forall_mem_append, List.forall_mem_cons] at hts
      obtain ⟨hp', hts, -, hus, -, hvs⟩ := hts
      have hpat := hp.isWellFormed (List.forall_mem_cons.mpr ⟨hp', hts⟩)
      rw [Alt.areWellFormed, hpat, IsExpr.isWellFormed hbody hus, (AreAlts.areWellFormed halts hvs).2]
      exact ⟨rfl, rfl⟩

theorem IsBinary.isWellFormed : ∀ {k : Nat} {ts : List Token} {e : Expr}, IsBinary Γ innermost k ts e →
    (∀ x ∈ ts, x.IsProper) → e.isWellFormed Γ = true
  | _, _, _, .op hl ho hr, hts => by
      simp only [List.forall_mem_append, List.forall_mem_cons] at hts
      obtain ⟨hts, -, hus⟩ := hts
      rw [Expr.isWellFormed, ho.ne_unknown, IsBinary.isWellFormed hl hts, IsBinary.isWellFormed hr hus]
      rfl
  | _, _, _, .tighter h, hts => IsBinary.isWellFormed h hts
  | _, _, _, .application h, hts => IsApplication.isWellFormed h hts

theorem IsApplication.isWellFormed : ∀ {ts : List Token} {e : Expr}, IsApplication Γ innermost ts e →
    (∀ x ∈ ts, x.IsProper) → e.isWellFormed Γ = true
  | _, _, .head h, hts => IsHead.isWellFormed h hts
  | _, _, .app hf has, hts => by
      rw [List.forall_mem_append] at hts
      rw [Expr.isWellFormed, IsHead.isWellFormed hf hts.1, AreAtoms.areWellFormed has hts.2]
      rfl

theorem IsHead.isWellFormed : ∀ {ts : List Token} {e : Expr}, IsHead Γ innermost ts e →
    (∀ x ∈ ts, x.IsProper) → e.isWellFormed Γ = true
  | _, _, .atom h, hts => IsAtom.isWellFormed h hts
  | _, _, .negated _ _, _ => rfl

theorem AreAtoms.areWellFormed : ∀ {ts : List Token} {es : List Expr}, AreAtoms Γ innermost ts es →
    (∀ x ∈ ts, x.IsProper) → Expr.areWellFormed Γ es = true
  | _, _, .nil, _ => rfl
  | _, _, .cons h hs, hts => by
      rw [List.forall_mem_append] at hts
      rw [Expr.areWellFormed, IsAtom.isWellFormed h hts.1, AreAtoms.areWellFormed hs hts.2]
      rfl

theorem IsAtom.isWellFormed : ∀ {ts : List Token} {e : Expr}, IsAtom Γ innermost ts e →
    (∀ x ∈ ts, x.IsProper) → e.isWellFormed Γ = true
  | _, _, .int _, _ | _, _, .true _, _ | _, _, .false _, _ => rfl
  | _, _, .var ht, hts => ht.isBinder (hts _ List.mem_cons_self)
  | _, _, .ctor ht, hts => ht.isKnown (hts _ List.mem_cons_self)
  | _, _, .paren _ h _, hts => by
      simp only [List.forall_mem_append, List.forall_mem_cons] at hts
      exact IsExpr.isWellFormed h hts.2.1
  | _, _, .annot _ h _ ht _, hts => by
      simp only [List.forall_mem_append, List.forall_mem_cons] at hts
      obtain ⟨-, hts, -, hus, -⟩ := hts
      rw [Expr.isWellFormed, IsExpr.isWellFormed h hts, IsType.isWellFormed ht hus]
      rfl

end

/-! ## Programs -/

/-- The constructors of a type are added to the table, and their names are new. -/
theorem AreConstructors.areWellFormed {type : String} {Γ Γ' : CtorTable} {ts : List Token}
    {cs : List Constructor} (h : AreConstructors type Γ ts cs Γ') (hts : ∀ x ∈ ts, x.IsProper) :
    cs ≠ [] ∧
      (cs.all fun c => isName c.name && c.fields.all Ty.isWellFormed && c.type == type) = true ∧
      Γ' = cs.reverse ++ Γ ∧ Γ.New (cs.map Constructor.name) := by
  induction h with
  | one hx h =>
      rw [List.forall_mem_cons] at hts
      refine ⟨by simp, ?_, rfl, CtorTable.new_cons.mpr ⟨hx.2, List.nodup_nil, by simp⟩⟩
      simp [hts.1.name hx.1, h.areWellFormed hts.2]
  | cons hx h hb _ ih =>
      simp only [List.forall_mem_append, List.forall_mem_cons] at hts
      obtain ⟨hname, hts, -, hus⟩ := hts
      obtain ⟨-, hcs, rfl, hnew⟩ := ih hus
      refine ⟨by simp, ?_, by simp [CtorTable.insert], CtorTable.new_cons.mpr ⟨hx.2, hnew⟩⟩
      rw [List.all_cons, hcs]
      simp [hname.name hx.1, h.areWellFormed hts]

theorem AreData.areWellFormed {Γ Γ' : CtorTable} {ts : List Token} {ds : List DataDecl}
    (h : AreData Γ ts ds Γ') (hts : ∀ x ∈ ts, x.IsProper) :
    ds.all DataDecl.isWellFormed = true ∧ Γ' = (ds.flatMap DataDecl.ctors).reverse ++ Γ ∧
      Γ.New ((ds.flatMap DataDecl.ctors).map Constructor.name) := by
  induction h with
  | nil => exact ⟨rfl, rfl, List.nodup_nil, by simp⟩
  | cons h _ ih =>
      rw [List.forall_mem_append] at hts
      obtain ⟨hds, hΓ', hnew⟩ := ih hts.2
      have hts := hts.1
      cases h with
      | mk _ hx _ hcs _ =>
          simp only [List.forall_mem_append, List.forall_mem_cons] at hts
          obtain ⟨-, hname, -, hts, -⟩ := hts
          obtain ⟨hne, hall, rfl, hnew'⟩ := hcs.areWellFormed hts
          refine ⟨?_, by simpa using hΓ', ?_⟩
          · rw [List.all_cons, hds, DataDecl.isWellFormed, hname.name hx, hall]
            simpa using hne
          · rw [List.flatMap_cons, List.map_append]
            exact CtorTable.new_append.mpr ⟨hnew', hnew⟩

theorem IsProgram.isWellFormedIn {ts : List Token} {p : Program} (h : IsProgram Γ innermost ts p)
    (hts : ∀ x ∈ ts, x.IsProper) (himports : p.imports = []) : p.IsWellFormedIn Γ := by
  cases h with
  | mk _ hds he _ =>
      simp only [List.forall_mem_append] at hts
      obtain ⟨-, hus, hvs, -⟩ := hts
      obtain ⟨hdata, rfl, hnew⟩ := hds.areWellFormed hus
      refine ⟨himports, hdata, hnew, ?_⟩
      cases he with
      | missing => exact Or.inl rfl
      | expr he => exact Or.inr (he.isWellFormed hvs)
      | terminated he _ => exact Or.inr (he.isWellFormed (List.forall_mem_append.mp hvs).1)

/-! ## Lines -/

theorem IsEntry.isWellFormed {ts : List Token} {name : Option String} {e : Expr}
    (h : IsEntry Γ innermost ts name e) (hts : ∀ x ∈ ts, x.IsProper) :
    (∀ x, name = some x → isBinder Γ x = true) ∧ e.isWellFormed Γ = true := by
  cases h with
  | define _ hx _ h =>
      simp only [List.forall_mem_cons] at hts
      obtain ⟨-, hname, -, hts⟩ := hts
      refine ⟨?_, h.isWellFormed hts⟩
      rintro _ ⟨⟩
      exact hx.isBinder hname
  | expr h => exact ⟨nofun, h.isWellFormed hts⟩

theorem IsLine.isWellFormedIn {ts : List Token} {l : Parser.Line} (h : IsLine Γ innermost ts l)
    (hts : ∀ x ∈ ts, x.IsProper) : l.IsWellFormedIn Γ := by
  obtain ⟨hds, he, -⟩ := h
  simp only [List.forall_mem_append] at hts
  obtain ⟨hts, hus, -⟩ := hts
  obtain ⟨-, rfl, hnew⟩ := hds.areWellFormed hts
  cases he with
  | missing => exact ⟨hnew, nofun, Or.inl ⟨rfl, rfl⟩⟩
  | entry he =>
      obtain ⟨hname, hexpr⟩ := he.isWellFormed hus
      exact ⟨hnew, hname, Or.inr hexpr⟩
  | terminated he _ =>
      obtain ⟨hname, hexpr⟩ := he.isWellFormed (List.forall_mem_append.mp hus).1
      exact ⟨hnew, hname, Or.inr hexpr⟩

end Grammar

end FunLang
