import Mathlib.Tactic
import FunLang.Proofs.BigStep.Runs
import FunLang.Proofs.Grammar.WellFormed
import FunLang.Proofs.Knots.Untouched
import FunLang.Proofs.Parser.Complete.Lines
import FunLang.Session

set_option autoImplicit false

/-!
# A line changes a session as a whole or not at all

A session that some lines have led to (`Session.Entered`) is left as it is by a line that has errors or
whose evaluation does not end with a value, but for the number of steps. A line that succeeds adds its
data and its definition, and nothing else (`Session.Extends`).

All this rests on one invariant (`Session.Valid`): the constructors in the table are those of the
data declarations, no two of them have the same name, and the values that are bound refer only to knots
in the store of the session. An evaluation leaves those knots alone, also if it fails or is stopped, so
that the values stay what they were.
-/

namespace FunLang.Session

open Grammar

/-! ## What a line does -/

/-- What comes of a line that has been read without an error. -/
inductive Performs (o : Machine.Options) (s : Session) (line : Parser.Line) :
    Session → Answer → Prop where
  | nothing (h : line.expr.isMissing = true) :
      Performs o s line (s.declare line.data) (.replied ⟨line.data, line.name, .absent, 0⟩)
  | failure {r : Machine.Result} {e : EvalError}
      (hrun : Machine.Stops o.maxSteps o.signal 0 ⟨s.store, s.env, subject line⟩ r)
      (hr : r.outcome = .error e) :
      Performs o s line { s with lastSteps := r.steps } (.failed e)
  | value {r : Machine.Result} {v : Value} (h : line.expr.isMissing = false)
      (hrun : Machine.Stops o.maxSteps o.signal 0 ⟨s.store, s.env, subject line⟩ r)
      (hr : r.outcome = .ok v) :
      Performs o s line (({ s with lastSteps := r.steps }.define line.name v r.store).declare line.data)
        (.replied ⟨line.data, line.name, v, r.steps⟩)

section Eval

variable {o : Machine.Options} {s s' : Session} {source : List UInt8} {a : Answer}
  {ds : List Diagnostic} {log : List Log.Record}

/-- The messages are those about the line as it is read. -/
theorem diags_eval (h : eval o s source = some (s', a, ds, log)) :
    ds = (Parser.parseLine source s.ctors).2.diags := by
  unfold eval at h
  generalize Parser.parseLine source s.ctors = p at h ⊢
  obtain ⟨line, p⟩ := p
  dsimp only at h ⊢
  split_ifs at h
  · cases h
    rfl
  · cases h
    rfl
  · obtain ⟨⟨r, log'⟩, -, h⟩ := Option.bind_eq_some_iff.mp h
    cases hr : r.outcome with
    | error _ | ok _ =>
        simp only [hr] at h
        cases h
        rfl

/-- A line is rejected, or it is a line of the grammar and is performed. -/
theorem eval_cases (h : eval o s source = some (s', a, ds, log)) :
    (Diagnostic.hasErrors ds = true ∧ s' = s ∧ a = .rejected) ∨
      Diagnostic.hasErrors ds = false ∧ ∃ line,
        IsLine s.ctors true (Lexer.tokenize source) line ∧ Performs o s line s' a := by
  have hline : Diagnostic.hasErrors (Parser.parseLine source s.ctors).2.diags = false →
      IsLine s.ctors true (Lexer.tokenize source)
        (Parser.parseLine source s.ctors).1 := Parser.isLine_parseLine true
  unfold eval at h
  generalize Parser.parseLine source s.ctors = p at h hline
  obtain ⟨line, p⟩ := p
  dsimp only at h hline
  split_ifs at h with herrors hmissing
  · cases h
    exact Or.inl ⟨herrors, rfl, rfl⟩
  · cases h
    rw [Bool.not_eq_true] at herrors
    exact Or.inr ⟨herrors, line, hline herrors, .nothing hmissing⟩
  · rw [Bool.not_eq_true] at herrors hmissing
    obtain ⟨⟨r, log'⟩, hrun, h⟩ := Option.bind_eq_some_iff.mp h
    have hstops := Machine.exists_runLogged_iff.mp ⟨log', hrun⟩
    cases hr : r.outcome with
    | error e =>
        simp only [hr] at h
        cases h
        exact Or.inr ⟨herrors, line, hline herrors, .failure hstops hr⟩
    | ok v =>
        simp only [hr] at h
        cases h
        exact Or.inr ⟨herrors, line, hline herrors, .value hmissing hstops hr⟩

end Eval

/-- Lines are entered one after the other, each with its own budget, interrupts and log, and their
answers have the property `P`. -/
inductive Entered (P : Answer → Prop) (s : Session) : Session → Prop where
  | refl : Entered P s s
  | line {s₁ s₂ : Session} {o : Machine.Options} {source : List UInt8} {a : Answer} {ds : List Diagnostic}
      {log : List Log.Record} (h : Entered P s s₁) (heval : eval o s₁ source = some (s₂, a, ds, log))
      (ha : P a) : Entered P s s₂

/-! ## The invariant -/

section Fields

variable (s : Session) (name : Option String) (v : Value) (σ : Store) (data : List DataDecl)

@[simp] theorem store_declare : (s.declare data).store = s.store := rfl

@[simp] theorem env_declare : (s.declare data).env = s.env := rfl

@[simp] theorem data_declare : (s.declare data).data = s.data ++ data := rfl

@[simp] theorem store_define : (s.define name v σ).store = σ := by cases name <;> rfl

@[simp] theorem data_define : (s.define name v σ).data = s.data := by cases name <;> rfl

@[simp] theorem ctors_define : (s.define name v σ).ctors = s.ctors := by cases name <;> rfl

@[simp] theorem env_define : (s.define name v σ).env = match name with
    | some x => .bind s.env x v
    | none => s.env := by cases name <;> rfl

end Fields

/-- All constructors that have been declared. -/
def declared (s : Session) : List Constructor := s.data.flatMap (·.ctors)

structure Valid (s : Session) : Prop where
  ctors : s.ctors = s.declared.reverse
  nodup : (s.declared.map (·.name)).Nodup
  store : s.store.Settled
  env : s.store.Covers s.env.refs

theorem valid_empty : Valid empty :=
  ⟨rfl, List.nodup_nil, by simp [Store.Settled, Store.knotValue?, empty, Store.empty],
    Store.covers_nil _⟩

section Valid

variable {s s' : Session}

/-- Names that are new to the table are new to the declarations. -/
theorem Valid.new_iff (h : s.Valid) {names : List String} :
    s.ctors.New names ↔ (s.declared.map (·.name) ++ names).Nodup := by
  rw [List.nodup_append', h.ctors]
  constructor
  · rintro ⟨hnodup, hunknown⟩
    exact ⟨h.nodup, hnodup, fun x hx hx' => hunknown x hx' (by simpa using hx)⟩
  · rintro ⟨-, hnodup, hdisjoint⟩
    exact ⟨hnodup, fun x hx hx' => hdisjoint (by simpa using hx') hx⟩

theorem Valid.find?_eq_some_iff (h : s.Valid) {x : String} {c : Constructor} :
    s.ctors.find? x = some c ↔ c ∈ s.declared ∧ c.name = x := by
  rw [CtorTable.find?_eq_some_iff, h.ctors, List.mem_reverse]
  rw [h.ctors]
  intro c hc c' hc'
  exact List.inj_on_of_nodup_map h.nodup (List.mem_reverse.mp hc) (List.mem_reverse.mp hc')

@[simp] theorem declared_declare (s : Session) (data : List DataDecl) :
    (s.declare data).declared = s.declared ++ data.flatMap (·.ctors) :=
  List.flatMap_append

theorem Valid.declare (h : s.Valid) {data : List DataDecl}
    (hnew : s.ctors.New ((data.flatMap (·.ctors)).map (·.name))) : (s.declare data).Valid := by
  refine ⟨?_, ?_, h.store, h.env⟩
  · rw [declared_declare, List.reverse_append, ← h.ctors]
    exact CtorTable.foldl_insert_eq _ _
  · rw [declared_declare, List.map_append]
    exact h.new_iff.mp hnew

theorem Valid.define (h : s.Valid) {v : Value} {σ : Store} (hv : Settles s.store v σ)
    (name : Option String) : (s.define name v σ).Valid := by
  have henv := h.env.mono hv.keeps.size
  cases name with
  | none => exact ⟨h.ctors, h.nodup, hv.store, henv⟩
  | some x => exact ⟨h.ctors, h.nodup, hv.store, henv.append hv.value⟩

theorem subject_isSource {line : Parser.Line} (h : line.expr.isSource = true) :
    (subject line).isSource = true := by
  unfold subject
  split
  · split_ifs
    · simp [Expr.isSource, h]
    · exact h
  · exact h

theorem Valid.settled (h : s.Valid) {line : Parser.Line} (hsource : line.expr.isSource = true) :
    Settled s.store s.env (subject line) :=
  settled_of_isSource h.store h.env (subject_isSource hsource)

/-- The evaluation of a line leaves the knots of the session alone. -/
theorem Valid.settles (h : s.Valid) {line : Parser.Line} (hsource : line.expr.isSource = true)
    {n : Nat} {v : Value} {σ : Store}
    (he : Evaluates .whole s.store s.env (subject line) n (.value v σ)) : Settles s.store v σ :=
  he.settles (h.settled hsource)

/-- So does a run that fails or is cut short: a session that takes back its store has lost nothing but the
knots that the run has made. -/
theorem Valid.keeps_of_stops (h : s.Valid) {line : Parser.Line} (hsource : line.expr.isSource = true)
    {maxSteps : Int} {signal : Nat → Option Interrupt} {r : Machine.Result}
    (hrun : Machine.Stops maxSteps signal 0 ⟨s.store, s.env, subject line⟩ r) : s.store.Keeps r.store :=
  hrun.keeps (h.settled hsource)

end Valid

/-! ## The change that a line makes -/

/-- The session `s'` is `s` with the data and the definition of a line added, and nothing else. The value
that is bound is what the line evaluates to in `s`, and the values that were bound before refer to
the same knots. -/
structure Extends (s : Session) (line : Parser.Line) (r : Reply) (s' : Session) : Prop where
  reply : r.data = line.data ∧ r.name = line.name
  value : if line.expr.isMissing then r.value = .absent ∧ s'.store = s.store
    else Evaluates .whole s.store s.env (subject line) r.steps (.value r.value s'.store)
  env : s'.env = match line.name with
    | some x => .bind s.env x r.value
    | none => s.env
  store : s.store.Keeps s'.store
  data : s'.data = s.data ++ line.data
  ctors : ∀ x c, s'.ctors.find? x = some c ↔
    s.ctors.find? x = some c ∨ c ∈ line.data.flatMap (·.ctors) ∧ c.name = x

section Lines

variable {o : Machine.Options} {s s' : Session} {line : Parser.Line} {a : Answer}

theorem Valid.performs (h : s.Valid) (hline : line.IsWellFormedIn s.ctors)
    (hsource : line.expr.isSource = true) (hp : Performs o s line s' a) : s'.Valid := by
  cases hp with
  | nothing _ => exact h.declare hline.new
  | failure _ _ => exact ⟨h.ctors, h.nodup, h.store, h.env⟩
  | @value r v _ hrun hr =>
      obtain ⟨n, -, he⟩ := hrun.exists_evaluates_of_ok hr
      have hcounted : Valid { s with lastSteps := r.steps } := ⟨h.ctors, h.nodup, h.store, h.env⟩
      refine (hcounted.define (h.settles hsource he) line.name).declare ?_
      simpa using hline.new

theorem Valid.extends_of_performs (h : s.Valid) (hline : line.IsWellFormedIn s.ctors)
    (hsource : line.expr.isSource = true) {r : Reply} (hp : Performs o s line s' (.replied r)) :
    s.Extends line r s' := by
  have hctors (hdata : s'.data = s.data ++ line.data) (x : String) (c : Constructor) :
      s'.ctors.find? x = some c ↔
        s.ctors.find? x = some c ∨ c ∈ line.data.flatMap (·.ctors) ∧ c.name = x := by
    rw [(h.performs hline hsource hp).find?_eq_some_iff, h.find?_eq_some_iff, declared, hdata,
      List.flatMap_append, List.mem_append, or_and_right]
    rfl
  cases hp with
  | nothing hmissing =>
      have hname : line.name = none := by
        rcases hline.content with ⟨hname, -⟩ | hexpr
        · exact hname
        · cases he : line.expr <;> simp [he, Expr.isMissing, Expr.isWellFormed] at hmissing hexpr
      exact ⟨⟨rfl, rfl⟩, by simp [hmissing], by simp [hname], .refl _, rfl, hctors rfl⟩
  | @value result v hmissing hrun hr =>
      obtain ⟨n, hsteps, he⟩ := hrun.exists_evaluates_of_ok hr
      obtain rfl : n = result.steps := by omega
      exact ⟨⟨rfl, rfl⟩, by simpa [hmissing] using he, by simp,
        by simpa using (h.settles hsource he).keeps, by simp, hctors (by simp)⟩

end Lines

/-- Every line leads from a session in which the invariant holds to another one. -/
theorem Entered.valid {P : Answer → Prop} {s s' : Session} (h : Entered P s s') (hs : s.Valid) :
    s'.Valid := by
  induction h with
  | refl => exact hs
  | line _ heval _ ih =>
      rcases eval_cases heval with ⟨-, rfl, -⟩ | ⟨-, line, hline, hp⟩
      · exact ih
      · have hwf := hline.isWellFormedIn fun _ => Lexer.isProper_of_mem_tokenize
        exact ih.performs hwf hline.isSource hp

/-! ## All or nothing -/

/-- The constructors that have been declared have different names, and the table knows each of them by
its name and no others. -/
structure Consistent (s : Session) : Prop where
  nodup : (s.declared.map (·.name)).Nodup
  table : ∀ x c, s.ctors.find? x = some c ↔ c ∈ s.declared ∧ c.name = x

/-- **A line is all or nothing.** After any lines in a fresh session, its table of constructors is
that of its data. The next line is rejected with errors, or fails without, and changes nothing but
the number of steps; or it succeeds, and adds exactly its data and its definition. The run of a line that
fails, or is stopped, has left the knots of the session as they were. -/
theorem eval_all_or_nothing {s : Session} (hs : Entered (fun _ => True) empty s) :
    s.Consistent ∧ ∀ o source s' a ds log, eval o s source = some (s', a, ds, log) →
      match a with
      | .rejected => Diagnostic.hasErrors ds = true ∧ s' = s
      | .failed e => Diagnostic.hasErrors ds = false ∧ s' = { s with lastSteps := s'.lastSteps } ∧
          ∃ line r, IsLine s.ctors true (Lexer.tokenize source) line ∧
            Machine.run o.maxSteps o.signal ⟨s.store, s.env, subject line⟩ = some r ∧
            r.outcome = .error e ∧ s.store.Keeps r.store
      | .replied r => Diagnostic.hasErrors ds = false ∧ ∃ line,
          IsLine s.ctors true (Lexer.tokenize source) line ∧ s.Extends line r s' := by
  have hvalid := hs.valid valid_empty
  refine ⟨⟨hvalid.nodup, fun x c => hvalid.find?_eq_some_iff⟩, ?_⟩
  intro o source s' a ds log heval
  rcases eval_cases heval with ⟨herrors, rfl, rfl⟩ | ⟨hok, line, hline, hp⟩
  · exact ⟨herrors, rfl⟩
  · cases a with
    | rejected => cases hp
    | failed e =>
        cases hp with
        | @failure r _ hrun hr =>
            exact ⟨hok, rfl, line, r, hline, Machine.run_eq_some_iff.mpr hrun, hr,
              hvalid.keeps_of_stops hline.isSource hrun⟩
    | replied r =>
        have hwf := hline.isWellFormedIn fun _ => Lexer.isProper_of_mem_tokenize
        exact ⟨hok, line, hline, hvalid.extends_of_performs hwf hline.isSource hp⟩

/-- A line that declares a constructor, and one that repeats it behind a new one. -/
theorem eval_all_or_nothing_repeated : ∃ s, Entered (fun _ => True) empty s ∧
    s.declared.map (·.name) = ["A"] ∧ s.Consistent ∧
    ∃ s' ds, eval ⟨0, Machine.quiet, Log.info⟩ s (Text.encode "data U = B | A;") = some (s', .rejected, ds, []) ∧
      Diagnostic.hasErrors ds = true ∧ s' = s := by
  have hfirst : eval ⟨0, Machine.quiet, Log.info⟩ empty (Text.encode "data T = A;")
      = some (empty.declare [⟨"T", [⟨"A", [], "T", ⟨1, 10⟩⟩], ⟨1, 1⟩⟩],
          .replied ⟨[⟨"T", [⟨"A", [], "T", ⟨1, 10⟩⟩], ⟨1, 1⟩⟩], none, .absent, 0⟩, [], []) := rfl
  obtain ⟨hconsistent, hnext⟩ := eval_all_or_nothing (.line .refl hfirst trivial)
  have hsecond : eval ⟨0, Machine.quiet, Log.info⟩
        (empty.declare [⟨"T", [⟨"A", [], "T", ⟨1, 10⟩⟩], ⟨1, 1⟩⟩]) (Text.encode "data U = B | A;")
      = some (empty.declare [⟨"T", [⟨"A", [], "T", ⟨1, 10⟩⟩], ⟨1, 1⟩⟩], .rejected,
          [(Diagnostic.error ⟨1, 14⟩ "constructor 'A' is already declared").withHint
            "constructor names must be unique across all data declarations"], []) := rfl
  exact ⟨_, .line .refl hfirst trivial, rfl, hconsistent, _, _, hsecond, hnext _ _ _ _ _ _ hsecond⟩

end FunLang.Session
