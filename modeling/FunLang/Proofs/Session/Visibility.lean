import FunLang.Proofs.Layout.Patterns
import FunLang.Proofs.Session.Atomicity

set_option autoImplicit false

/-!
# What a name stands for on a later line

A line that defines a name binds it to a value. The binding stays through all lines that do not define the
name again, and the value refers to the same knots as before. A line that consists of the name alone is
answered with that value, unless a line in between has declared a constructor of that name: the line
is then read as the constructor, and the binding cannot be reached any more.
-/

namespace FunLang.Session

open Grammar Lexer

/-! ## Lines that are evaluated -/

section Eval

variable {o : Machine.Options} {s : Session} {source : List UInt8}

/-- A line of the grammar whose evaluation ends with a value is answered with it. -/
theorem exists_eval_of_stops {line : Parser.Line}
    (hline : IsLine s.ctors true (tokenize source) line)
    (hmissing : line.expr.isMissing = false) {v : Value} {n : Nat} {σ : Store}
    (hrun : Machine.Stops o.maxSteps o.signal 0 ⟨s.store, s.env, subject line⟩ ⟨.ok v, n, σ⟩) :
    ∃ log, eval o s source = some
      (({ s with lastSteps := n }.define line.name v σ).declare line.data,
        .replied ⟨line.data, line.name, v, n⟩, [], log) := by
  obtain ⟨hdiags, hparse⟩ := Parser.parseLine_eq_of_isLine hline
  obtain ⟨log, hlogged⟩ := Machine.exists_runLogged_iff.mpr hrun
  refine ⟨log, ?_⟩
  unfold eval
  generalize Parser.parseLine source s.ctors = p at hdiags hparse
  obtain ⟨line', p⟩ := p
  dsimp only at hdiags hparse ⊢
  subst hparse
  rw [hdiags, hmissing, hlogged]
  rfl

/-- What a line that consists of a name is read as. -/
theorem isLine_name {Γ : CtorTable} {x : String} (hx : isName x = true) :
    ∃ p, (Γ.find? x = none →
        IsLine Γ true (tokenize (Text.encode x)) ⟨[], none, .var p x⟩) ∧
      ∀ c, Γ.find? x = some c → IsLine Γ true (tokenize (Text.encode x)) ⟨[], none, .ctor p c⟩ := by
  obtain ⟨_, z, htokens, ⟨t, rfl, hkind, rfl⟩, hz⟩ := (Layout.spells_name hx).tokenize_eq
  have hline {e : Expr} (he : IsAtom Γ true [t] e) :
      IsLine Γ true (tokenize (Text.encode t.text)) ⟨[], none, e⟩ := by
    rw [htokens]
    have hbinary : IsBinary Γ true 4 [t] e := .application (.head (.atom he))
    exact .mk .nil (.entry (.expr (.binary (hbinary.weaken (by omega))))) hz
  exact ⟨t.pos, fun hfind => hline (.var ⟨hkind, hfind⟩), fun c hfind => hline (.ctor ⟨hkind, hfind⟩)⟩

/-- A run of one step is not cut short by a budget. -/
theorem stops_of_next (ho : o.signal 0 = none) {t : Machine.State} {v : Value} {σ : Store}
    (h : t.next = .value v σ) : Machine.Stops o.maxSteps o.signal 0 t ⟨.ok v, 1, σ⟩ := by
  refine .value ?_ h
  simp only [Machine.cutShort?, ho]
  exact if_neg (by omega)

/-- A line that consists of a name is answered after one step: with the constructor of that name if
there is one, and otherwise with the value that is bound to it. -/
theorem exists_eval_name (ho : o.signal 0 = none) {x : String} (hx : isName x = true) {v : Value}
    (hv : match s.ctors.find? x with
      | some c => v = .data c []
      | none => v ≠ .absent ∧ s.env.find? x = some (.value v)) :
    ∃ log, eval o s (Text.encode x) = some ({ s with lastSteps := 1 }, .replied ⟨[], none, v, 1⟩, [], log) := by
  obtain ⟨p, hvar, hctor⟩ := isLine_name (Γ := s.ctors) hx
  have hsame : (({ s with lastSteps := 1 } : Session).define none v s.store).declare []
      = { s with lastSteps := 1 } := by simp [declare, define]
  rw [← hsame]
  cases hfind : s.ctors.find? x with
  | some c =>
      rw [hfind] at hv
      subst hv
      exact exists_eval_of_stops (hctor c hfind) rfl (stops_of_next ho rfl)
  | none =>
      rw [hfind] at hv
      refine exists_eval_of_stops (hvar hfind) rfl (stops_of_next ho ?_)
      have hlookup : s.env.lookup s.store x = .found v := by simp [Env.lookup, hv.2]
      simp [subject, Machine.State.next, step, hlookup, Step.ofValue_of_ne hv.1]

end Eval

/-! ## Lines in between -/

section Entered

variable {s s' : Session} {x : String}

/-- A line that does not define a name leaves its binding alone. -/
theorem Performs.find?_env {o : Machine.Options} {line : Parser.Line} {a : Answer}
    (h : Performs o s line s' a) (ha : ∀ r, a = .replied r → r.name ≠ some x) :
    s'.env.find? x = s.env.find? x := by
  cases h with
  | nothing _ => rfl
  | failure _ _ => rfl
  | value _ _ _ =>
      have hname : line.name ≠ some x := ha _ rfl
      rw [env_declare, env_define]
      split
      · rename_i y hy
        have hne : y ≠ x := fun heq => hname (heq ▸ hy)
        simp [Env.find?, hne]
      · rfl

theorem Entered.find?_env (h : Entered (fun a => ∀ r, a = .replied r → r.name ≠ some x) s s') :
    s'.env.find? x = s.env.find? x := by
  induction h with
  | refl => rfl
  | line _ heval ha ih =>
      rcases eval_cases heval with ⟨-, rfl, -⟩ | ⟨-, line, -, hp⟩
      · exact ih
      · exact (hp.find?_env ha).trans ih

/-- The values that are bound keep their knots. -/
theorem Entered.keeps {P : Answer → Prop} (h : Entered P s s') (hs : s.Valid) :
    s.store.Keeps s'.store := by
  induction h with
  | refl => exact .refl _
  | line h heval _ ih =>
      rcases eval_cases heval with ⟨-, rfl, -⟩ | ⟨-, line, hline, hp⟩
      · exact ih
      · refine ih.trans ?_
        cases hp with
        | nothing _ => exact .refl _
        | failure _ _ => exact .refl _
        | value _ hrun hr =>
            obtain ⟨n, -, he⟩ := hrun.exists_evaluates_of_ok hr
            simpa using ((h.valid hs).settles hline.isSource he).keeps

end Entered

/-! ## Definitions -/

/-- What a definition leaves behind. -/
theorem Performs.find?_of_name {o : Machine.Options} {s s' : Session} {line : Parser.Line} {r : Reply}
    {x : String} (h : Performs o s line s' (.replied r)) (hline : line.IsWellFormedIn s.ctors)
    (hx : r.name = some x) : isName x = true ∧ r.value ≠ .absent ∧
      s'.env.find? x = some (.value r.value) := by
  have hbinder : ∀ y, line.name = some y → isName y = true := fun y hy => by
    have := hline.name y hy
    simp only [isBinder, Bool.and_eq_true] at this
    exact this.1
  cases h with
  | nothing hmissing =>
      rcases hline.content with ⟨hname, -⟩ | hexpr
      · rw [hname] at hx
        cases hx
      · cases he : line.expr <;> simp [he, Expr.isMissing, Expr.isWellFormed] at hmissing hexpr
  | value _ hrun hr =>
      obtain ⟨n, -, he⟩ := hrun.exists_evaluates_of_ok hr
      have hname : line.name = some x := hx
      refine ⟨hbinder x hname, he.ne_absent, ?_⟩
      rw [env_declare, env_define, hname]
      simp [Env.find?]

/-- **A definition stays visible until a constructor hides it.** A line has defined `x`, and no line
after it has defined `x` again. The line `x` is then answered after one step, so that every budget
suffices: with the value of the definition if no constructor has that name, and otherwise with the
constructor. -/
theorem eval_name_of_defined {s s₁ s₂ : Session} {o o' : Machine.Options} {source : List UInt8}
    {x : String} {r : Reply}
    {ds : List Diagnostic} {log : List Log.Record} (hs : Entered (fun _ => True) empty s)
    (hdef : eval o s source = some (s₁, .replied r, ds, log)) (hx : r.name = some x)
    (hafter : Entered (fun a => ∀ r', a = .replied r' → r'.name ≠ some x) s₁ s₂)
    (ho : o'.signal 0 = none) :
    s₁.store.Keeps s₂.store ∧ ∃ v log',
      eval o' s₂ (Text.encode x) = some ({ s₂ with lastSteps := 1 }, .replied ⟨[], none, v, 1⟩, [], log') ∧
      ((∀ c ∈ s₂.declared, c.name ≠ x) → v = r.value) ∧
      ∀ c ∈ s₂.declared, c.name = x → v = .data c [] := by
  have hvalid := (hs.line hdef trivial).valid valid_empty
  have hvalid' := hafter.valid hvalid
  refine ⟨hafter.keeps hvalid, ?_⟩
  rcases eval_cases hdef with ⟨-, -, ha⟩ | ⟨-, line, hline, hp⟩
  · cases ha
  · have hwf := hline.isWellFormedIn fun _ => isProper_of_mem_tokenize
    obtain ⟨hname, habsent, hfind⟩ := hp.find?_of_name hwf hx
    rw [← hafter.find?_env] at hfind
    cases hctor : s₂.ctors.find? x with
    | some c =>
        obtain ⟨hc, hcx⟩ := hvalid'.find?_eq_some_iff.mp hctor
        obtain ⟨log', heval⟩ := exists_eval_name (v := .data c []) ho hname (by rw [hctor])
        refine ⟨_, log', heval, fun hno => absurd hcx (hno c hc), fun c' hc' hcx' => ?_⟩
        have hctor' := hvalid'.find?_eq_some_iff.mpr ⟨hc', hcx'⟩
        rw [hctor] at hctor'
        cases hctor'
        rfl
    | none =>
        obtain ⟨log', heval⟩ := exists_eval_name (v := r.value) ho hname (by rw [hctor]; exact ⟨habsent, hfind⟩)
        refine ⟨_, log', heval, fun _ => rfl, fun c hc hcx => ?_⟩
        have hctor' := hvalid'.find?_eq_some_iff.mpr ⟨hc, hcx⟩
        rw [hctor] at hctor'
        cases hctor'

section OneDefinition

/-- The session after `let x = 1`. -/
def withOne : Session := ⟨.bind .empty "x" (.int 1), .empty, [], [], 1⟩

theorem exists_eval_one : ∃ log, eval ⟨0, Machine.quiet, Log.info⟩ empty (Text.encode "let x = 1")
    = some (withOne, .replied ⟨[], some "x", .int 1, 1⟩, [], log) := by
  have hline : IsLine [] true (tokenize (Text.encode "let x = 1"))
      (Parser.parseLine (Text.encode "let x = 1") []).1 := Parser.isLine_parseLine true rfl
  have hparse : (Parser.parseLine (Text.encode "let x = 1") []).1
      = ⟨[], some "x", .int ⟨1, 9⟩ 1⟩ := rfl
  rw [hparse] at hline
  exact exists_eval_of_stops (s := empty) hline rfl (stops_of_next rfl rfl)

/-- A type of that name does not hide the definition. -/
theorem eval_name_of_defined_one : ∃ s log, Entered (fun a => ∀ r, a = .replied r → r.name ≠ some "x")
      withOne s ∧ s.declared.map (·.name) = ["y"] ∧
    eval ⟨1, Machine.quiet, Log.info⟩ s (Text.encode "x")
      = some ({ s with lastSteps := 1 }, .replied ⟨[], none, .int 1, 1⟩, [], log) := by
  have hdeclare : eval ⟨0, Machine.quiet, Log.info⟩ withOne (Text.encode "data x = y;")
      = some (withOne.declare [⟨"x", [⟨"y", [], "x", ⟨1, 10⟩⟩], ⟨1, 1⟩⟩],
          .replied ⟨[⟨"x", [⟨"y", [], "x", ⟨1, 10⟩⟩], ⟨1, 1⟩⟩], none, .absent, 0⟩, [], []) := rfl
  have hafter : Entered (fun a => ∀ r, a = .replied r → r.name ≠ some "x") withOne
      (withOne.declare [⟨"x", [⟨"y", [], "x", ⟨1, 10⟩⟩], ⟨1, 1⟩⟩]) :=
    .line .refl hdeclare (by rintro _ ⟨⟩; simp)
  obtain ⟨log, hone⟩ := exists_eval_one
  have hsignal : (⟨1, Machine.quiet, Log.info⟩ : Machine.Options).signal 0 = none := rfl
  obtain ⟨-, v, log', heval, hv, -⟩ := eval_name_of_defined .refl hone rfl hafter hsignal
  obtain rfl := hv (by simp [declared, declare, withOne])
  exact ⟨_, log', hafter, rfl, heval⟩

/-- A constructor that is declared under the name of a definition hides it, although no line has defined
the name again. -/
theorem eval_name_hidden : ∃ s₁ s₂ s₃ log₁ log₃,
    eval ⟨0, Machine.quiet, Log.info⟩ empty (Text.encode "let x = 1")
      = some (s₁, .replied ⟨[], some "x", .int 1, 1⟩, [], log₁) ∧
    eval ⟨0, Machine.quiet, Log.info⟩ s₁ (Text.encode "data T = x;") = some (s₂,
      .replied ⟨[⟨"T", [⟨"x", [], "T", ⟨1, 10⟩⟩], ⟨1, 1⟩⟩], none, .absent, 0⟩, [], []) ∧
    eval ⟨0, Machine.quiet, Log.info⟩ s₂ (Text.encode "x") = some (s₃,
      .replied ⟨[], none, .data ⟨"x", [], "T", ⟨1, 10⟩⟩ [], 1⟩, [], log₃) := by
  obtain ⟨log, hone⟩ := exists_eval_one
  have hdeclare : eval ⟨0, Machine.quiet, Log.info⟩ withOne (Text.encode "data T = x;")
      = some (withOne.declare [⟨"T", [⟨"x", [], "T", ⟨1, 10⟩⟩], ⟨1, 1⟩⟩],
          .replied ⟨[⟨"T", [⟨"x", [], "T", ⟨1, 10⟩⟩], ⟨1, 1⟩⟩], none, .absent, 0⟩, [], []) := rfl
  obtain ⟨log', hname⟩ := exists_eval_name (o := ⟨0, Machine.quiet, Log.info⟩)
    (s := withOne.declare [⟨"T", [⟨"x", [], "T", ⟨1, 10⟩⟩], ⟨1, 1⟩⟩]) (x := "x")
    (v := .data ⟨"x", [], "T", ⟨1, 10⟩⟩ []) rfl (by decide +kernel) rfl
  exact ⟨_, _, _, log, log', hone, hdeclare, hname⟩

end OneDefinition

end FunLang.Session
