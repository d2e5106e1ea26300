import FunLang.Layout
import FunLang.Proofs.Grammar
import FunLang.Proofs.Syntax.Unplaced
import FunLang.Proofs.Syntax.WellFormed

set_option autoImplicit false

/-!
# The tokens of types and patterns

The text of a well-formed type or pattern spells a phrase of the grammar, and the tree of that
phrase is the type or pattern up to places. The table `Γ`, for which a pattern is well-formed, and the
table `Δ`, with which its text is read, may differ in the places of their constructors.
-/

namespace FunLang.Layout

open Lexer Grammar

/-- The tokens are a phrase whose tree is `a` up to places. -/
def Denotes {α : Type} (derives : List Token → α → Prop) (unplaced : α → α) (a : α)
    (ts : List Token) : Prop :=
  ∃ a', derives ts a' ∧ unplaced a' = unplaced a

variable {Γ Δ : CtorTable}

/-! ## Names -/

theorem text_eq_of_literal {x : String} {t : Token} (ht : t.literal = Text.encode x) : t.text = x := by
  rw [Token.text, ht, Text.decode_encode]

theorem spells_name {x : String} (hx : isName x = true) :
    Spells x fun ts => ∃ t, ts = [t] ∧ t.kind = .ident ∧ t.text = x := by
  have hword : isWord x = true := (Bool.and_eq_true _ _ ▸ hx).1
  refine (spells_word hword).mono ?_
  rintro _ ⟨t, rfl, hkind, hliteral⟩
  exact ⟨t, rfl, hkind.trans (TokenKind.ofWord_of_isName hx), text_eq_of_literal hliteral⟩

theorem spells_binder (hΔ : Γ.Alike Δ) {x : String} (hx : isBinder Γ x = true) :
    Spells x fun ts => ∃ t, ts = [t] ∧ IsVariable Δ t ∧ t.text = x := by
  simp only [isBinder, CtorTable.contains, Bool.and_eq_true, Bool.not_eq_true',
    Option.isSome_eq_false_iff, Option.isNone_iff_eq_none] at hx
  refine (spells_name hx.1).mono ?_
  rintro _ ⟨t, rfl, hkind, htext⟩
  exact ⟨t, rfl, ⟨hkind, htext ▸ hΔ.find?_eq_none hx.2⟩, htext⟩

theorem spells_constructor (hΔ : Γ.Alike Δ) {c : Constructor} (hc : c.isKnown Γ = true) :
    Spells c.name fun ts => ∃ t c', ts = [t] ∧ IsConstructor Δ t c' ∧ c'.unplaced = c.unplaced := by
  simp only [Constructor.isKnown, Bool.and_eq_true, beq_iff_eq] at hc
  obtain ⟨c', hfind, hc'⟩ := hΔ.exists_of_find? hc.2
  refine (spells_name hc.1).mono ?_
  rintro _ ⟨t, rfl, hkind, htext⟩
  exact ⟨t, c', rfl, ⟨hkind, htext ▸ hfind⟩, hc'⟩

/-! ## Literals -/

theorem spells_nonneg {n : Int64} (hn : 0 ≤ n.toInt) :
    Spells (toString n.toInt) fun ts => ∃ t, ts = [t] ∧ IsInt t n := by
  rw [Int.toString_eq_repr, Int.repr_eq_if, if_pos hn]
  refine (spells_repr _).mono ?_
  rintro _ ⟨t, rfl, hkind, hliteral⟩
  refine ⟨t, rfl, hkind, ?_⟩
  rw [hliteral, Text.digitsValue_encode_repr]
  omega

theorem spells_neg {n : Int64} (hn : n.toInt < 0) :
    Spells (toString n.toInt) fun ts => ∃ m t, ts = [m, t] ∧ m.kind = .minus ∧ IsNegated t n := by
  rw [Int.toString_eq_repr, Int.repr_eq_if, if_neg (by omega)]
  refine (spells_negative _).mono ?_
  rintro _ ⟨_, _, rfl, ⟨m, rfl, hm, -⟩, t, rfl, hkind, hliteral⟩
  refine ⟨m, t, rfl, hm, hkind, ?_⟩
  rw [hliteral, Text.digitsValue_encode_repr]
  omega

theorem int_of_nonneg {n : Int64} (hn : 0 ≤ n.toInt) (tight : Bool) :
    int tight n = toString n.toInt := by
  have hlt : ¬ n < 0 := by
    rw [Int64.lt_iff_toInt_lt, Int64.toInt_zero]
    omega
  simp [int, parenIf, hlt]

theorem int_of_neg {n : Int64} (hn : n.toInt < 0) (tight : Bool) :
    int tight n = parenIf tight (toString n.toInt) := by
  have hlt : n < 0 := by
    rw [Int64.lt_iff_toInt_lt, Int64.toInt_zero]
    exact hn
  simp [int, hlt]

theorem spells_bool (b : Bool) : Spells (bool b) fun ts =>
    ∃ t, ts = [t] ∧ t.kind = if b then .kwTrue else .kwFalse := by
  cases b with
  | false =>
      have hfalse : Spells "false" (IsToken .kwFalse "false") := spells_keyword (by decide)
      exact hfalse.mono fun _ ⟨t, ht, hkind, _⟩ => ⟨t, ht, hkind⟩
  | true =>
      have htrue : Spells "true" (IsToken .kwTrue "true") := spells_keyword (by decide)
      exact htrue.mono fun _ ⟨t, ht, hkind, _⟩ => ⟨t, ht, hkind⟩

/-! ## Types -/

theorem spells_typeName {n : String} (hn : (isName n || n == "Int" || n == "Bool") = true) :
    Spells n fun ts => ∃ t, ts = [t] ∧ NamesType t.kind ∧ t.text = n := by
  simp only [Bool.or_eq_true, beq_iff_eq] at hn
  rcases hn with (hn | rfl) | rfl
  · refine (spells_name hn).mono ?_
    rintro _ ⟨t, rfl, hkind, htext⟩
    exact ⟨t, rfl, hkind ▸ .name, htext⟩
  · have hint : Spells "Int" (IsToken .intType "Int") := spells_keyword (by decide)
    refine hint.mono ?_
    rintro _ ⟨t, rfl, hkind, hliteral⟩
    exact ⟨t, rfl, hkind ▸ .int, by rw [Token.text, hliteral, Text.decode_encode]⟩
  · have hbool : Spells "Bool" (IsToken .boolType "Bool") := spells_keyword (by decide)
    refine hbool.mono ?_
    rintro _ ⟨t, rfl, hkind, hliteral⟩
    exact ⟨t, rfl, hkind ▸ .bool, by rw [Token.text, hliteral, Text.decode_encode]⟩

theorem opens_arrow : Opens " -> " (IsToken .arrow "->") :=
  (spells_symbol (by decide)).framed " " " " rfl rfl

/-- The text of a type by itself and as a field. -/
theorem spells_type : ∀ {t : Ty}, t.isWellFormed = true →
    Spells t.render (Denotes IsType Ty.unplaced t) ∧
      Spells t.renderField (Denotes IsAtomicType Ty.unplaced t)
  | .name p n, h => by
      have hatomic : Spells n (Denotes IsAtomicType Ty.unplaced (.name p n)) := by
        refine (spells_typeName h).mono ?_
        rintro _ ⟨t, rfl, hkind, rfl⟩
        exact ⟨_, .name hkind, rfl⟩
      exact ⟨hatomic.mono fun _ ⟨t, ht, heq⟩ => ⟨t, .atomic ht, heq⟩, hatomic⟩
  | .arrow p t u, h => by
      simp only [Ty.isWellFormed, Bool.and_eq_true] at h
      have htype : Spells (t.renderField ++ " -> " ++ u.render)
          (Denotes IsType Ty.unplaced (.arrow p t u)) := by
        have hparam := (spells_type h.1).2.append_opens opens_arrow rfl
        refine (hparam.append (spells_type h.2).1).mono ?_
        rintro _ ⟨_, us, rfl, ⟨ts, _, rfl, ⟨t', ht', heqt⟩, a, rfl, ha, -⟩, u', hu', hequ⟩
        refine ⟨.arrow a.pos t' u', ?_, by rw [Ty.unplaced, Ty.unplaced, heqt, hequ]⟩
        simpa using IsType.arrow ht' ha hu'
      refine ⟨htype, htype.paren.mono ?_⟩
      rintro _ ⟨l, us, r, rfl, hl, ⟨t', ht', heq⟩, hr⟩
      exact ⟨t', .paren hl ht' hr, heq⟩

/-! ## Patterns -/

theorem spells_pattern_of_atomic {s : String} {p : Pattern}
    (h : Spells s (Denotes (IsAtomicPattern Δ) Pattern.unplaced p)) :
    Spells s (Denotes (IsPattern Δ) Pattern.unplaced p) :=
  h.mono fun _ ⟨p', hp', heq⟩ => ⟨p', .atomic hp', heq⟩

theorem spells_pattern_paren {s : String} {p : Pattern}
    (h : Spells s (Denotes (IsPattern Δ) Pattern.unplaced p)) :
    Spells (parenIf true s) (Denotes (IsAtomicPattern Δ) Pattern.unplaced p) := by
  refine h.paren.mono ?_
  rintro _ ⟨l, us, r, rfl, hl, ⟨p', hp', heq⟩, hr⟩
  exact ⟨p', .paren hl hp' hr, heq⟩

mutual

/-- The text of a pattern by itself and as an argument of a constructor. -/
theorem spells_pattern (hΔ : Γ.Alike Δ) : ∀ {p : Pattern}, p.isWellFormed Γ = true →
    Spells (patternAt false p) (Denotes (IsPattern Δ) Pattern.unplaced p) ∧
      Spells (patternAt true p) (Denotes (IsAtomicPattern Δ) Pattern.unplaced p)
  | .int p n, _ => by
      rcases Int.lt_or_le n.toInt 0 with hn | hn
      · -- a negative number has parentheses as an argument, though the grammar does without them
        have hatomic : Spells (toString n.toInt)
            (Denotes (IsAtomicPattern Δ) Pattern.unplaced (.int p n)) := by
          refine (spells_neg hn).mono ?_
          rintro _ ⟨m, t, rfl, hm, ht⟩
          exact ⟨_, .negated hm ht, rfl⟩
        have hpattern := spells_pattern_of_atomic hatomic
        rw [patternAt, patternAt, int_of_neg hn, int_of_neg hn]
        exact ⟨hpattern, spells_pattern_paren hpattern⟩
      · have hatomic : Spells (toString n.toInt)
            (Denotes (IsAtomicPattern Δ) Pattern.unplaced (.int p n)) := by
          refine (spells_nonneg hn).mono ?_
          rintro _ ⟨t, rfl, ht⟩
          exact ⟨_, .int ht, rfl⟩
        rw [patternAt, patternAt, int_of_nonneg hn, int_of_nonneg hn]
        exact ⟨spells_pattern_of_atomic hatomic, hatomic⟩
  | .bool p b, _ => by
      have hatomic : Spells (bool b)
          (Denotes (IsAtomicPattern Δ) Pattern.unplaced (.bool p b)) := by
        refine (spells_bool b).mono ?_
        rintro _ ⟨t, rfl, ht⟩
        cases b with
        | false => exact ⟨_, .false ht, rfl⟩
        | true => exact ⟨_, .true ht, rfl⟩
      exact ⟨spells_pattern_of_atomic hatomic, hatomic⟩
  | .var p x, h => by
      have hatomic : Spells x (Denotes (IsAtomicPattern Δ) Pattern.unplaced (.var p x)) := by
        refine (spells_binder hΔ h).mono ?_
        rintro _ ⟨t, rfl, ht, rfl⟩
        exact ⟨_, .var ht, rfl⟩
      exact ⟨spells_pattern_of_atomic hatomic, hatomic⟩
  | .ctor p c [], h => by
      simp only [Pattern.isWellFormed, Bool.and_eq_true] at h
      have hatomic : Spells c.name
          (Denotes (IsAtomicPattern Δ) Pattern.unplaced (.ctor p c [])) := by
        refine (spells_constructor hΔ h.1).mono ?_
        rintro _ ⟨t, c', rfl, ht, hc'⟩
        exact ⟨_, .ctor ht, by simp only [Pattern.unplaced, hc']⟩
      exact ⟨spells_pattern_of_atomic hatomic, hatomic⟩
  | .ctor p c (q :: qs), h => by
      simp only [Pattern.isWellFormed, Bool.and_eq_true] at h
      have happlied : Spells (c.name ++ patternArgs (q :: qs))
          (Denotes (IsPattern Δ) Pattern.unplaced (.ctor p c (q :: qs))) := by
        obtain ⟨hargs, hbreaks⟩ := spells_patternArgs hΔ h.2
        refine ((spells_constructor hΔ h.1).append hargs hbreaks).mono ?_
        rintro _ ⟨_, us, rfl, ⟨t, c', rfl, ht, hc'⟩, ps, hps, heq⟩
        exact ⟨_, .ctor ht hps, by rw [Pattern.unplaced, Pattern.unplaced, hc', heq]⟩
      exact ⟨happlied, spells_pattern_paren happlied⟩

theorem spells_patternArgs (hΔ : Γ.Alike Δ) : ∀ {ps : List Pattern},
    Pattern.areWellFormed Γ ps = true →
      Spells (patternArgs ps) (Denotes (AreAtomicPatterns Δ) Pattern.unplacedAll ps) ∧
        Breaks (Text.encode (patternArgs ps))
  | [], _ => ⟨spells_empty.mono fun _ h => ⟨[], h ▸ .nil, rfl⟩, rfl⟩
  | p :: ps, h => by
      simp only [Pattern.areWellFormed, Bool.and_eq_true] at h
      obtain ⟨hargs, hbreaks⟩ := spells_patternArgs hΔ h.2
      have hfirst := (spells_pattern hΔ h.1).2.after_gap (g := " ") rfl
      refine ⟨(hfirst.append hargs hbreaks).mono ?_, ?_⟩
      · rintro _ ⟨ts, us, rfl, ⟨p', hp', heqp⟩, ps', hps', heqps⟩
        exact ⟨_, .cons hp' hps', by rw [Pattern.unplacedAll, Pattern.unplacedAll, heqp, heqps]⟩
      · rw [patternArgs, Text.encode_append, Text.encode_append]
        rfl

end

end FunLang.Layout
