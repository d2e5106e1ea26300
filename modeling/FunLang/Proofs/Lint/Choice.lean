import Mathlib.Tactic
import FunLang.Parser.Programs
import FunLang.Proofs.Lint.Kinds
import FunLang.Proofs.Machine.Matching
import FunLang.Proofs.Machine.Stops

set_option autoImplicit false

/-!
# Alternatives that are reported

Linting reports alternatives of a `case` that are not chosen. Each such warning belongs to an alternative of
a `case` of the program and has a cause among the patterns there. For most causes the alternative is not
chosen, whatever the value is. Two causes take for granted what evaluation, which has no types, does not:
that behind both truth values the value is one of them, and that a constructor has the fields it declares.
`Cause.Escapes` says for which values such an alternative is chosen after all (`program_choiceWarnings`),
and `chosen_although_reported` shows one for both causes.
-/

namespace FunLang.Lint

/-! ## Causes -/

/-- The values for which an alternative may be chosen although it is reported: behind both truth values
all others, and for a pattern with the wrong number of arguments those that hold the constructor with just
as many fields. -/
def Cause.Escapes : Cause → Value → Prop
  | afterBooleans, v => ∀ b, v ≠ .bool b
  | wrongCount c count, v =>
    count ≠ c.arity ∧ ∃ d fields, v.Part (.data d fields) ∧ c.same d = true ∧ fields.length = count
  | _, _ => False

/-- A cause to report the alternative `a` behind others, at a place. -/
inductive Justified (before : List Alt) (a : Alt) : Pos → Cause → Prop where
  | afterVariable {b : Alt} {p : Pos} {x : String} (hb : b ∈ before) (hpat : b.pattern = .var p x) :
      Justified before a a.pattern.pos (.afterVariable x)
  | repeatedInt {b : Alt} {p q : Pos} {n : Int64} (hb : b ∈ before) (hpat : b.pattern = .int q n)
      (ha : a.pattern = .int p n) : Justified before a p (.repeatedInt n)
  | repeatedBool {b : Alt} {p q : Pos} {c : Bool} (hb : b ∈ before) (hpat : b.pattern = .bool q c)
      (ha : a.pattern = .bool p c) : Justified before a p (.repeatedBool c)
  | afterBooleans (h : ∀ c : Bool, ∃ b ∈ before, ∃ p, b.pattern = .bool p c) :
      Justified before a a.pattern.pos .afterBooleans
  | wrongCount {p : Pos} {c : Constructor} {args : List Pattern} (hpart : a.pattern.Part (.ctor p c args))
      (hcount : args.length ≠ c.arity) : Justified before a p (.wrongCount c args.length)

/-- A value for which a reported alternative is chosen is an exception of the cause. -/
theorem Justified.escapes {before : List Alt} {a : Alt} {p : Pos} {cause : Cause}
    (h : Justified before a p cause) {v : Value} (hselects : Alt.Selects v before a) : cause.Escapes v := by
  cases h with
  | afterVariable hb hpat =>
      have hnone := hselects.not_before hb
      simp [hpat, Pattern.bindings?] at hnone
  | @repeatedInt b p q n hb hpat ha =>
      -- the place of a literal does not matter
      have hsame : (Pattern.int p n).bindings? v = (Pattern.int q n).bindings? v := by cases v <;> rfl
      have hsome := hselects.isSome
      rw [ha, hsame, ← hpat, hselects.not_before hb] at hsome
      simp at hsome
  | @repeatedBool b p q c hb hpat ha =>
      have hsame : (Pattern.bool p c).bindings? v = (Pattern.bool q c).bindings? v := by cases v <;> rfl
      have hsome := hselects.isSome
      rw [ha, hsame, ← hpat, hselects.not_before hb] at hsome
      simp at hsome
  | afterBooleans hboth =>
      rintro c rfl
      obtain ⟨b, hb, q, hpat⟩ := hboth c
      have hnone := hselects.not_before hb
      simp [hpat, Pattern.bindings?] at hnone
  | @wrongCount p c args hpart hcount =>
      obtain ⟨w, hw, hmatch⟩ := hpart.exists_part hselects.isSome
      obtain ⟨d, fields, rfl, hsame, hlength, -⟩ := Pattern.exists_of_bindings?_ctor hmatch
      exact ⟨hcount, d, fields, hw, hsame, hlength.symm⟩

/-! ## Reports -/

/-- A warning about an alternative of a `case`, with what stands before and behind the alternative. -/
structure Report where
  before : List Alt
  alt : Alt
  behind : List Alt
  pos : Pos
  cause : Cause

def Report.alts (r : Report) : List Alt := r.before ++ r.alt :: r.behind

def Report.warning (r : Report) : Diagnostic := r.cause.warning r.pos

/-- The warnings are reports with a cause about alternatives of some `case`s. -/
def Reported (cases : List (List Alt)) (ds : List Diagnostic) : Prop :=
  ∃ reports : List Report, ds = reports.map Report.warning ∧
    ∀ r ∈ reports, r.alts ∈ cases ∧ Justified r.before r.alt r.pos r.cause

namespace Reported

variable {cases cases' : List (List Alt)} {ds ds' : List Diagnostic}

theorem nil (cases : List (List Alt)) : Reported cases [] := ⟨[], rfl, by simp⟩

theorem single {before : List Alt} {a : Alt} {p : Pos} {cause : Cause} (h : Justified before a p cause)
    (behind : List Alt) (hmem : before ++ a :: behind ∈ cases) : Reported cases [cause.warning p] :=
  ⟨[⟨before, a, behind, p, cause⟩], rfl, by simpa [Report.alts] using ⟨hmem, h⟩⟩

theorem append (h : Reported cases ds) (h' : Reported cases ds') : Reported cases (ds ++ ds') := by
  obtain ⟨rs, rfl, hrs⟩ := h
  obtain ⟨rs', rfl, hrs'⟩ := h'
  refine ⟨rs ++ rs', by simp, fun r hr => ?_⟩
  exact (List.mem_append.mp hr).elim (hrs r) (hrs' r)

theorem mono (h : Reported cases ds) (hsub : cases ⊆ cases') : Reported cases' ds := by
  obtain ⟨rs, rfl, hrs⟩ := h
  exact ⟨rs, rfl, fun r hr => ⟨hsub (hrs r hr).1, (hrs r hr).2⟩⟩

theorem isAboutChoice (h : Reported cases ds) : ∀ d ∈ ds, IsAboutChoice d := by
  obtain ⟨rs, rfl, -⟩ := h
  simp only [List.mem_map, forall_exists_index, and_imp, forall_apply_eq_imp_iff₂]
  exact fun r _ => .intro r.pos r.cause

theorem ofKind_eq (h : Reported cases ds) : ofKind IsAboutChoice ds = ds := ofKind_eq_self h.isAboutChoice

end Reported

/-- The literals that are carried along are patterns of the alternatives before. -/
structure Seen (before : List Alt) (ints : List Int64) (bools : List Bool) : Prop where
  ints : ∀ n ∈ ints, ∃ b ∈ before, ∃ p, b.pattern = .int p n
  bools : ∀ c ∈ bools, ∃ b ∈ before, ∃ p, b.pattern = .bool p c

namespace Seen

variable {before : List Alt} {ints : List Int64} {bools : List Bool}

theorem pass (h : Seen before ints bools) (a : Alt) : Seen (before ++ [a]) ints bools where
  ints n hn := by
    obtain ⟨b, hb, hpat⟩ := h.ints n hn
    exact ⟨b, List.mem_append_left _ hb, hpat⟩
  bools c hc := by
    obtain ⟨b, hb, hpat⟩ := h.bools c hc
    exact ⟨b, List.mem_append_left _ hb, hpat⟩

theorem int (h : Seen before ints bools) {a : Alt} {p : Pos} {n : Int64} (ha : a.pattern = .int p n) :
    Seen (before ++ [a]) (n :: ints) bools where
  ints m hm := by
    rcases List.mem_cons.mp hm with rfl | hm
    · exact ⟨a, by simp, p, ha⟩
    · exact (h.pass a).ints m hm
  bools := (h.pass a).bools

theorem bool (h : Seen before ints bools) {a : Alt} {p : Pos} {c : Bool} (ha : a.pattern = .bool p c) :
    Seen (before ++ [a]) ints (c :: bools) where
  ints := (h.pass a).ints
  bools d hd := by
    rcases List.mem_cons.mp hd with rfl | hd
    · exact ⟨a, by simp, p, ha⟩
    · exact (h.pass a).bools d hd

end Seen

theorem reported_unreachableFrom (behind : List Alt) : ∀ (before : List Alt) (ints : List Int64)
    (bools : List Bool), Seen before ints bools →
    Reported [before ++ behind] (unreachableFrom ints bools behind) := by
  induction behind with
  | nil => exact fun before ints bools _ => .nil _
  | cons a rest ih =>
      intro before ints bools hseen
      -- the alternative itself goes over to those before
      have hrest : ∀ ints bools, Seen (before ++ [a]) ints bools →
          Reported [before ++ a :: rest] (unreachableFrom ints bools rest) := by
        intro ints bools h
        have hrest := ih (before ++ [a]) ints bools h
        rwa [List.append_assoc, List.singleton_append] at hrest
      have hnext : ∀ next later, rest = next :: later → ∀ cause,
          Justified (before ++ [a]) next next.pattern.pos cause →
          Reported [before ++ a :: rest] [cause.warning next.pattern.pos] := by
        rintro next later rfl cause h
        exact .single h later (by simp)
      obtain ⟨q, pat, e⟩ := a
      cases pat with
      | var p x =>
          cases rest with
          | nil => exact .nil _
          | cons next later =>
              have hvariable : Alt.mk q (.var p x) e ∈ before ++ [.mk q (.var p x) e] := by simp
              exact hnext next later rfl _ (.afterVariable hvariable rfl)
      | int p n =>
          refine .append ?_ (hrest _ _ (hseen.int rfl))
          split
          · rename_i hmem
            obtain ⟨b, hb, p', hpat⟩ := hseen.ints n (by simpa using hmem)
            have hcause : Justified before (.mk q (.int p n) e) p (.repeatedInt n) := .repeatedInt hb hpat rfl
            exact .single hcause rest (List.mem_singleton_self _)
          · exact .nil _
      | bool p c =>
          have hseen' := hseen.bool (a := .mk q (.bool p c) e) rfl
          unfold unreachableFrom
          refine .append ?_ ?_
          · split
            · rename_i hmem
              obtain ⟨b, hb, p', hpat⟩ := hseen.bools c (by simpa using hmem)
              have hcause : Justified before (.mk q (.bool p c) e) p (.repeatedBool c) :=
                .repeatedBool hb hpat rfl
              exact .single hcause rest (List.mem_singleton_self _)
            · exact .nil _
          · split
            · rename_i next later hboth
              rw [Bool.and_eq_true, List.contains_iff_mem, List.contains_iff_mem] at hboth
              refine hnext next later rfl _ (.afterBooleans fun d => hseen'.bools d ?_)
              cases d
              · exact hboth.2
              · exact hboth.1
            · exact hrest _ _ hseen'
      | ctor p c args => exact hrest _ _ (hseen.pass _)
      | missing => exact hrest _ _ (hseen.pass _)

theorem reported_unreachable (alts : List Alt) : Reported [alts] (unreachable alts) :=
  reported_unreachableFrom alts [] [] [] ⟨by simp, by simp⟩

/-! ## The reports of an expression -/

mutual

/-- The alternatives of each `case` in an expression. -/
def caseAlts : Expr → List (List Alt)
  | .binary _ _ l r => caseAlts l ++ caseAlts r
  | .cond _ c t e => caseAlts c ++ caseAlts t ++ caseAlts e
  | .fn _ _ body => caseAlts body
  | .app _ f args => caseAlts f ++ caseAltsAll args
  | .letIn _ _ bound body => caseAlts bound ++ caseAlts body
  | .annot _ e _ => caseAlts e
  | .cases _ s alts => caseAlts s ++ [alts] ++ caseAltsWithin alts
  | _ => []

def caseAltsAll : List Expr → List (List Alt)
  | [] => []
  | e :: es => caseAlts e ++ caseAltsAll es

def caseAltsWithin : List Alt → List (List Alt)
  | [] => []
  | .mk _ _ e :: alts => caseAlts e ++ caseAltsWithin alts

end

theorem reported_introduce (Γ : Scope) (b : Binder) : Reported [] (ofKind IsAboutChoice (introduce Γ b)) := by
  obtain ⟨ds, hplain, hintroduce⟩ := exists_introduce_eq Γ b
  have hshadowing : ∀ d ∈ shadowing Γ b, ¬ IsAboutChoice d := by
    intro d hd
    unfold shadowing at hd
    split at hd
    · split at hd
      · simp at hd
      · rw [List.mem_singleton.mp hd]
        exact (IsAboutScope.shadow ..).not_isAboutChoice
    · simp at hd
  rw [hintroduce, ofKind_append, ofKind_eq_nil fun d hd => (hplain d hd).2, ofKind_eq_nil hshadowing]
  exact .nil _

theorem not_isAboutChoice_leave (level : Nat) (uses : List Nat) (bs : List Binder) :
    ∀ d ∈ leave level uses bs, ¬ IsAboutChoice d := by
  induction bs generalizing level with
  | nil => simp [leave]
  | cons b bs ih =>
      intro d hd
      rcases List.mem_append.mp hd with hd | hd
      · split at hd
        · simp at hd
        · rw [List.mem_singleton.mp hd]
          exact (IsAboutScope.unused b).not_isAboutChoice
      · exact ih (level + 1) d hd

/-- What findings say about alternatives are reports about some `case`s. -/
def Reports (cases : List (List Alt)) (found : Findings) : Prop :=
  Reported cases (ofKind IsAboutChoice found.warnings)

section Reports

variable {cases cases' : List (List Alt)} {found found' : Findings}

theorem Reports.append (h : Reports cases found) (h' : Reports cases' found') :
    Reports (cases ++ cases') (found ++ found') := by
  rw [Reports, Findings.warnings_append, ofKind_append]
  exact (Reported.mono h (List.subset_append_left ..)).append
    (Reported.mono h' (List.subset_append_right ..))

theorem reports_of_forall_not (h : ∀ d ∈ found.warnings, ¬ IsAboutChoice d) : Reports [] found := by
  rw [Reports, ofKind_eq_nil h]
  exact .nil _

theorem Reports.closing (level : Nat) (bs : List Binder) {opening : List Diagnostic}
    (hopening : Reported cases (ofKind IsAboutChoice opening)) (h : Reports cases' found) :
    Reports (cases ++ cases') (Lint.closing level bs opening found) := by
  have hleave := not_isAboutChoice_leave level found.uses bs
  rw [Reports, Lint.closing, ofKind_append, ofKind_append, ofKind_eq_nil hleave, List.append_nil]
  exact (hopening.mono (List.subset_append_left ..)).append
    (Reported.mono h (List.subset_append_right ..))

end Reports

mutual

/-- What is reported about the parts of the pattern of an alternative. -/
theorem reported_patternBinders (before : List Alt) (a : Alt) (behind : List Alt) :
    ∀ (p : Pattern) (Γ : Scope), a.pattern.Part p →
      Reported [before ++ a :: behind] (ofKind IsAboutChoice (patternBinders Γ p).2)
  | .var p x, Γ, _ => by
      exact (reported_introduce Γ ⟨x, .patternVariable, p, false⟩).mono (List.nil_subset _)
  | .ctor p c args, Γ, hpart => by
      rw [patternBinders, ofKind_append]
      refine .append ?_ (reported_patternsBinders before a behind args Γ fun q hq => .arg hpart hq)
      split
      · rename_i hcount
        have hcause : Justified before a p (.wrongCount c args.length) := .wrongCount hpart hcount
        have hreport := Reported.single hcause behind (List.mem_singleton_self _)
        rwa [← hreport.ofKind_eq] at hreport
      · exact .nil _
  | .int .., _, _ | .bool .., _, _ | .missing, _, _ => .nil _

theorem reported_patternsBinders (before : List Alt) (a : Alt) (behind : List Alt) :
    ∀ (ps : List Pattern) (Γ : Scope), (∀ p ∈ ps, a.pattern.Part p) →
      Reported [before ++ a :: behind] (ofKind IsAboutChoice (patternsBinders Γ ps).2)
  | [], _, _ => .nil _
  | p :: ps, Γ, hparts => by
      rw [patternsBinders, ofKind_append]
      exact .append (reported_patternBinders before a behind p Γ (hparts p (by simp)))
        (reported_patternsBinders before a behind ps _ fun q hq => hparts q (by simp [hq]))

end

mutual

theorem reports_expr : ∀ (e : Expr) (Γ : Scope), Reports (caseAlts e) (expr Γ e)
  | .var p x, Γ => by
      refine reports_of_forall_not (fun d hd => ?_)
      cases hfind : Γ.find? x with
      | none =>
          rw [expr, occurrence_of_none hfind] at hd
          rw [List.mem_singleton.mp hd]
          exact (IsAboutScope.unbound p x).not_isAboutChoice
      | some found =>
          rw [expr, occurrence_of_some hfind] at hd
          simp at hd
  | .binary _ _ l r, Γ => (reports_expr l Γ).append (reports_expr r Γ)
  | .cond _ c t e, Γ => by
      have hplain : Reports [] (.ofWarnings (constantCondition c)) :=
        reports_of_forall_not fun d hd => (isPlain_constantCondition c d hd).2
      exact ((hplain.append (reports_expr c Γ)).append (reports_expr t Γ)).append (reports_expr e Γ)
  | .fn p x body, Γ => by
      let b : Binder := ⟨x, .parameter, p, false⟩
      exact Reports.closing Γ.length [b] (reported_introduce Γ b) (reports_expr body (b :: Γ))
  | .app p f args, Γ => by
      have hplain : Reports [] (.ofWarnings (overApplied p f args)) :=
        reports_of_forall_not fun d hd => (isPlain_overApplied p f args d hd).2
      exact (hplain.append (reports_expr f Γ)).append (reports_exprs args Γ)
  | .letIn p x bound body, Γ => by
      let b : Binder := ⟨x, .letBinding, p, false⟩
      have hinside := (reports_expr bound ({ b with pending := true } :: Γ)).append
        (reports_expr body (b :: Γ))
      have hall := Reports.closing Γ.length [b] (reported_introduce Γ b) hinside
      exact hall
  | .annot _ e _, Γ => reports_expr e Γ
  | .cases _ s alts, Γ => by
      have hunreachable : Reports [alts] (.ofWarnings (unreachable alts)) := by
        rw [Reports, Findings.warnings_ofWarnings, (reported_unreachable alts).ofKind_eq]
        exact reported_unreachable alts
      have halts := reports_alternatives alts [] Γ
      have hall := ((reports_expr s Γ).append hunreachable).append halts
      exact Reported.mono hall (by simp [caseAlts])
  | .missing, _ | .int .., _ | .bool .., _ | .ctor .., _ | .value _, _ | .within .., _ | .tying .., _
  | .custom .., _ | .wrapped .., _ => .nil _

theorem reports_exprs : ∀ (es : List Expr) (Γ : Scope), Reports (caseAltsAll es) (exprs Γ es)
  | [], _ => .nil _
  | e :: es, Γ => (reports_expr e Γ).append (reports_exprs es Γ)

/-- The patterns from one alternative on are reported as patterns of all the alternatives. -/
theorem reports_alternatives : ∀ (behind before : List Alt) (Γ : Scope),
    Reports ((before ++ behind) :: caseAltsWithin behind) (alternatives Γ behind)
  | [], _, _ => .nil _
  | .mk q p e :: alts, before, Γ => by
      have hpattern := reported_patternBinders before (.mk q p e) alts p Γ .refl
      have hbody := reports_expr e ((patternBinders Γ p).1.reverse ++ Γ)
      have hrest := reports_alternatives alts (before ++ [.mk q p e]) Γ
      rw [List.append_assoc, List.singleton_append] at hrest
      have hclosing := Reports.closing Γ.length (patternBinders Γ p).1 hpattern hbody
      refine Reported.mono (hclosing.append hrest) fun alts' halts' => ?_
      simp only [caseAltsWithin, List.mem_cons, List.mem_append] at halts' ⊢
      tauto

end

/-- **Alternatives that are reported are not chosen**, but for the exceptions of two causes. Each warning
about an alternative belongs to an alternative of a `case` of the program and has a cause among the patterns
there; and if the scan for a value ends with this alternative, the value is an exception of the cause. -/
theorem program_choiceWarnings (prog : Program) :
    ∃ reports : List Report, (ofKind IsAboutChoice (program prog)).Perm (reports.map Report.warning) ∧
      ∀ r ∈ reports, r.alts ∈ caseAlts prog.body ∧ Justified r.before r.alt r.pos r.cause ∧
        ∀ v, Alt.Selects v r.before r.alt → r.cause.Escapes v := by
  obtain ⟨reports, hwarnings, hreports⟩ := reports_expr prog.body []
  refine ⟨reports, ?_, fun r hr => ?_⟩
  · rw [← hwarnings]
    exact ofKind_program_perm (fun d hd => hd.2) prog
  · obtain ⟨hmem, hjustified⟩ := hreports r hr
    exact ⟨hmem, hjustified, fun v => hjustified.escapes⟩

/-- A number is neither truth value, and a constructor that lacks a field matches without it: with such a
value the alternative is chosen that is reported. -/
theorem chosen_although_reported :
    (∃ prog before a behind,
      (Parser.parseProgram (Text.encode "case 5 of | true -> 1 | false -> 2 | b -> 3") []).1 = prog ∧
      caseAlts prog.body = [before ++ a :: behind] ∧
      Cause.afterBooleans.warning a.pattern.pos ∈ program prog ∧ Alt.Selects (.int 5) before a ∧
      Machine.run 0 Machine.quiet ⟨.empty, .empty, prog.body⟩ = some ⟨.ok (.int 3), 3, .empty⟩) ∧
    ∃ prog before a behind c v,
      (Parser.parseProgram (Text.encode "data P = P Int Int; case P 1 of | P a -> a | q -> 0") []).1 = prog ∧
      caseAlts prog.body = [before ++ a :: behind] ∧
      (Cause.wrongCount c 1).warning a.pattern.pos ∈ program prog ∧ Alt.Selects v before a ∧
      Machine.run 0 Machine.quiet ⟨.empty, .empty, prog.body⟩ = some ⟨.ok (.int 1), 5, .empty⟩ := by
  refine ⟨?_, ?_⟩
  · have hparse : (Parser.parseProgram (Text.encode "case 5 of | true -> 1 | false -> 2 | b -> 3") []).1
        = ⟨[], [], .cases ⟨1, 1⟩ (.int ⟨1, 6⟩ 5) [.mk ⟨1, 13⟩ (.bool ⟨1, 13⟩ true) (.int ⟨1, 21⟩ 1),
            .mk ⟨1, 25⟩ (.bool ⟨1, 25⟩ false) (.int ⟨1, 34⟩ 2),
            .mk ⟨1, 38⟩ (.var ⟨1, 38⟩ "b") (.int ⟨1, 43⟩ 3)]⟩ := by
      rfl
    refine ⟨_, [_, _], _, [], hparse, rfl, ?_, ⟨rfl, by simp [Alt.select?, Pattern.bindings?]⟩, ?_⟩
    · rw [(perm_program _).mem_iff]
      decide
    · exact (Machine.run_quiet_iff _ _).mpr ⟨2, _, rfl, rfl⟩
  · let P : Constructor := ⟨"P", [.name ⟨1, 12⟩ "Int", .name ⟨1, 16⟩ "Int"], "P", ⟨1, 10⟩⟩
    have hparse :
        (Parser.parseProgram (Text.encode "data P = P Int Int; case P 1 of | P a -> a | q -> 0") []).1
        = ⟨[], [⟨"P", [P], ⟨1, 1⟩⟩], .cases ⟨1, 21⟩ (.app ⟨1, 26⟩ (.ctor ⟨1, 26⟩ P) [.int ⟨1, 28⟩ 1])
            [.mk ⟨1, 35⟩ (.ctor ⟨1, 35⟩ P [.var ⟨1, 37⟩ "a"]) (.var ⟨1, 42⟩ "a"),
              .mk ⟨1, 46⟩ (.var ⟨1, 46⟩ "q") (.int ⟨1, 51⟩ 0)]⟩ := by
      rfl
    refine ⟨_, [], _, [_], P, .data P [.int 1], hparse, rfl, ?_, ⟨rfl, ?_⟩, ?_⟩
    · rw [(perm_program _).mem_iff]
      decide
    · decide
    · exact (Machine.run_quiet_iff _ _).mpr ⟨4, _, rfl, rfl⟩

end FunLang.Lint
