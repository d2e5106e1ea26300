import FunLang.Proofs.Parser.Sound.Lines
import FunLang.Proofs.Session.Definitions

set_option autoImplicit false

/-!
# A session is a nest of lets

Lines with definitions, and a last one with an expression, are answered like the expression with a `let`
for each definition around it: with the same value, up to the environments of functions, with the
failure of the first line that fails, or not at all. This holds as long as a definition that is not a
function does not ask for its own name, since a session then takes the value that the name had before.

`Session.Lines` says what the lines come to in terms of big-step evaluation. On the one side stands the
session, which reads and runs line after line, on the other side the rules for `let`.
-/

namespace FunLang.Session

/-- A line is read as an expression, with the name it is to be defined as if there is one, and without
a data declaration. -/
def Holds (source : List UInt8) (name : Option String) (e : Expr) : Prop :=
  ∃ s, Parser.parseLine source [] = (⟨[], name, e⟩, s) ∧
    Diagnostic.hasErrors s.diags = false ∧ e.isMissing = false

/-- The answer to the first of some lines that fails, or to the last line if all of them succeed. There
is none if one of the lines up to there never stops. -/
def answerTo (o : Machine.Options) (last : List UInt8) : Session → List (List UInt8) → Option Answer
  | s, [] => (eval o s last).map fun r => r.2.1
  | s, l :: ls => do
    let (s', a, _) ← eval o s l
    match a with
    | .replied _ => answerTo o last s' ls
    | _ => some a

section AnswerTo

variable {o : Machine.Options} {s s' : Session} {last l : List UInt8}
  {ls : List (List UInt8)} {rest : List Diagnostic × List Log.Record}

theorem answerTo_of_replied {r : Reply} (h : eval o s l = some (s', .replied r, rest)) :
    answerTo o last s (l :: ls) = answerTo o last s' ls := by
  simp only [answerTo, h, Option.bind_eq_bind, Option.bind_some]

theorem answerTo_of_failed {e : EvalError} (h : eval o s l = some (s', .failed e, rest)) :
    answerTo o last s (l :: ls) = some (.failed e) := by
  simp only [answerTo, h, Option.bind_eq_bind, Option.bind_some]

theorem answerTo_of_none (h : eval o s l = none) : answerTo o last s (l :: ls) = none := by
  simp only [answerTo, h, Option.bind_eq_bind, Option.bind_none]

end AnswerTo

/-- What some definitions and an expression come to, each evaluated by itself. -/
inductive Lines (e : Expr) : Store → Env → List (String × Expr) → Outcome → Prop where
  | last {σ : Store} {env : Env} {n : Nat} {oc : Outcome} (h : Evaluates .whole σ env e n oc) :
      Lines e σ env [] oc
  | failure {σ : Store} {env : Env} {x : String} {b : Expr} {ds : List (String × Expr)} {n : Nat}
      {f : Failure} (h : Evaluates .whole σ env (defining x b) n (.failure f)) :
      Lines e σ env ((x, b) :: ds) (.failure f)
  | define {σ σ' : Store} {env : Env} {x : String} {b : Expr} {ds : List (String × Expr)} {n : Nat}
      {v : Value} {oc : Outcome} (h : Evaluates .whole σ env (defining x b) n (.value v σ'))
      (hs : Lines e σ' (.bind env x v) ds oc) : Lines e σ env ((x, b) :: ds) oc

/-! ## Lines of a session -/

theorem Holds.isSource {source : List UInt8} {name : Option String} {e : Expr}
    (h : Holds source name e) : e.isSource = true := by
  obtain ⟨s, hparse, herrors, -⟩ := h
  have hsource := Parser.isSource_parseLine source []
  rw [hparse] at hsource
  exact hsource herrors

/-- An answer tells an outcome. -/
def Answer.Tells (a : Answer) : Outcome → Prop
  | .value v _ => ∃ r, a = .replied r ∧ r.value = v
  | .failure f => a = .failed (.failure f)

/-- Reading a line that holds an expression is running it. -/
theorem eval_of_holds {o : Machine.Options} {s : Session} (hs : s.ctors = []) {source : List UInt8}
    {name : Option String} {e : Expr} (h : Holds source name e) :
    ∃ ds, eval o s source = (Machine.runLogged o ⟨s.store, s.env, subject ⟨[], name, e⟩⟩).map
      fun (r, log) =>
        match r.outcome with
        | .error err => ({ s with lastSteps := r.steps }, .failed err, ds, log)
        | .ok v => (({ s with lastSteps := r.steps }.define name v r.store).declare [],
            .replied ⟨[], name, v, r.steps⟩, ds, log) := by
  obtain ⟨p, hparse, herrors, hmissing⟩ := h
  refine ⟨p.diags, ?_⟩
  unfold eval
  rw [hs, hparse]
  dsimp only
  rw [if_neg (by simp [herrors]), if_neg (by simp [hmissing])]
  cases Machine.runLogged o ⟨s.store, s.env, subject ⟨[], name, e⟩⟩ with
  | none => rfl
  | some r =>
      obtain ⟨⟨outcome, steps, store⟩, log⟩ := r
      cases outcome <;> rfl

section Eval

variable {o : Machine.Options} (hbudget : o.maxSteps ≤ 0) (hsignal : o.signal = Machine.quiet)
  {s : Session} (hs : s.ctors = []) {source : List UInt8} {name : Option String} {e : Expr}
  (h : Holds source name e)
include hbudget hsignal hs h

/-- A line whose expression evaluates to an outcome is answered with it. A value is bound for the lines
that follow. -/
theorem exists_eval_of_evaluates {n : Nat} {oc : Outcome}
    (he : Evaluates .whole s.store s.env (subject ⟨[], name, e⟩) n oc) :
    ∃ s' a rest, eval o s source = some (s', a, rest) ∧ a.Tells oc ∧ s'.ctors = [] ∧
      ∀ v σ, oc = .value v σ → s'.store = σ ∧ ∀ x, name = some x → s'.env = .bind s.env x v := by
  obtain ⟨r, hstops, hr⟩ := Machine.exists_stops_of_evaluates
    (s := ⟨s.store, s.env, subject ⟨[], name, e⟩⟩) hbudget he 0
  rw [← hsignal] at hstops
  obtain ⟨log, hrun⟩ := Machine.exists_runLogged_iff.mpr hstops
  obtain ⟨ds, heval⟩ := eval_of_holds (o := o) hs h
  rw [hrun] at heval
  obtain ⟨outcome, steps, store⟩ := r
  cases oc with
  | failure f =>
      obtain rfl : outcome = .error (.failure f) := hr
      exact ⟨_, _, _, heval, rfl, hs, nofun⟩
  | value v σ =>
      obtain ⟨rfl, rfl⟩ : outcome = .ok v ∧ store = σ := hr
      refine ⟨_, _, _, heval, ⟨_, rfl, rfl⟩, ?_, ?_⟩
      · cases name <;> exact hs
      · rintro _ _ ⟨⟩
        cases name with
        | none => exact ⟨rfl, nofun⟩
        | some x => exact ⟨rfl, by rintro _ ⟨⟩; rfl⟩

/-- A line that stops has been evaluated. -/
theorem exists_evaluates_of_eval {r : Session × Answer × List Diagnostic × List Log.Record}
    (heval : eval o s source = some r) :
    ∃ n oc, Evaluates .whole s.store s.env (subject ⟨[], name, e⟩) n oc := by
  obtain ⟨ds, heval'⟩ := eval_of_holds (o := o) hs h
  rw [heval'] at heval
  obtain ⟨⟨r, log⟩, hrun, -⟩ := Option.map_eq_some_iff.mp heval
  have hstops := Machine.exists_runLogged_iff.mp ⟨log, hrun⟩
  rw [hsignal] at hstops
  obtain ⟨n, oc, he, -⟩ := hstops.exists_evaluates hbudget
  exact ⟨n, oc, he⟩

end Eval

section Lines

variable {o : Machine.Options} (hbudget : o.maxSteps ≤ 0) (hsignal : o.signal = Machine.quiet)
  {last : List UInt8} {e : Expr} (hlast : Holds last none e) {lines : List (List UInt8)}
  {defs : List (String × Expr)} (hlines : List.Forall₂ (fun l d => Holds l (some d.1) d.2) lines defs)
  {s : Session} (hs : s.ctors = [])
include hbudget hsignal hlast hlines hs

/-- What the lines come to is what they are answered with. -/
theorem exists_answerTo_of_lines {oc : Outcome} (h : Lines e s.store s.env defs oc) :
    ∃ a, answerTo o last s lines = some a ∧ a.Tells oc := by
  induction hlines generalizing s with
  | nil =>
      cases h with
      | last he =>
          obtain ⟨s', a, rest, heval, ha, -⟩ := exists_eval_of_evaluates hbudget hsignal hs hlast he
          exact ⟨a, by rw [answerTo, heval]; rfl, ha⟩
  | cons hline _ ih =>
      cases h with
      | failure he =>
          obtain ⟨s', a, rest, heval, rfl, -⟩ := exists_eval_of_evaluates hbudget hsignal hs hline he
          exact ⟨_, answerTo_of_failed heval, rfl⟩
      | define he hrest =>
          obtain ⟨s', a, rest, heval, ⟨r, rfl, -⟩, hs', hdefined⟩ :=
            exists_eval_of_evaluates hbudget hsignal hs hline he
          obtain ⟨hstore, henv⟩ := hdefined _ _ rfl
          rw [← hstore, ← henv _ rfl] at hrest
          obtain ⟨a, ha, htells⟩ := ih hs' hrest
          exact ⟨a, (answerTo_of_replied heval).trans ha, htells⟩

/-- Lines that are answered come to something. -/
theorem exists_lines_of_answerTo {a : Answer} (h : answerTo o last s lines = some a) :
    ∃ oc, Lines e s.store s.env defs oc := by
  induction hlines generalizing s with
  | nil =>
      obtain ⟨r, heval, -⟩ := Option.map_eq_some_iff.mp h
      obtain ⟨n, oc, he⟩ := exists_evaluates_of_eval hbudget hsignal hs hlast heval
      exact ⟨oc, .last he⟩
  | @cons l d ls ds hline _ ih =>
      cases hl : eval o s l with
      | none => simp [answerTo_of_none hl] at h
      | some r =>
          obtain ⟨n, oc, he⟩ := exists_evaluates_of_eval hbudget hsignal hs hline hl
          cases oc with
          | failure f => exact ⟨_, .failure he⟩
          | value v σ =>
              obtain ⟨s', a', rest, heval, ⟨r, rfl, -⟩, hs', hdefined⟩ :=
                exists_eval_of_evaluates hbudget hsignal hs hline he
              obtain ⟨hstore, henv⟩ := hdefined _ _ rfl
              rw [answerTo_of_replied heval] at h
              obtain ⟨oc, hrest⟩ := ih hs' h
              rw [hstore, henv _ rfl] at hrest
              exact ⟨oc, .define he hrest⟩

end Lines

/-! ## Nested lets -/

section Nested

variable {e : Expr} (he : e.isSource = true) {p : Pos} {defs : List (String × Expr)}
  (hsource : ∀ d ∈ defs, d.2.isSource = true)
  (hdefs : ∀ d ∈ defs, isFunction d.2 = true ∨ d.1 ∉ d.2.free) {π : Pairing} {env env' : Env}
  (h : π.Beside env env')
include he hsource hdefs h

/-- What the lines of a session come to, the nested `let`s come to. -/
theorem exists_evaluates_letIns {oc : Outcome} (hl : Lines e π.left env defs oc) :
    ∃ n oc' π', Evaluates .whole π.right env' (.letIns p defs e) n oc' ∧ Outcome.Twin π' oc oc' := by
  induction defs generalizing π env env' with
  | nil =>
      cases hl with
      | last hleft =>
          obtain ⟨n, oc', hright, htwin⟩ := (h.twin he).exists_evaluates hleft
          exact ⟨n, oc', π, hright, htwin⟩
  | cons d ds ih =>
      have hsource' := hsource d (by simp)
      have hdef := hdefs d (by simp)
      cases hl with
      | failure hleft =>
          obtain ⟨n, oc', hright, hdefined⟩ := h.exists_bound hsource' hdef hleft
          cases hdefined
          exact ⟨_, _, π, .letIn_bound hright, .failure _⟩
      | define hleft hrest =>
          obtain ⟨n, oc', hright, hdefined⟩ := h.exists_bound hsource' hdef hleft
          cases hdefined with
          | value hstore hbeside =>
              obtain ⟨m, oc', π', hbody, htwin⟩ := ih (fun d hd => hsource d (by simp [hd]))
                (fun d hd => hdefs d (by simp [hd])) hbeside hrest
              rw [hstore] at hbody
              exact ⟨_, oc', π', .letIn hright hbody, htwin⟩

/-- If the nested `let`s come to something, then so do the lines of a session. -/
theorem exists_lines_of_letIns {n : Nat} {oc' : Outcome}
    (hright : Evaluates .whole π.right env' (.letIns p defs e) n oc') :
    ∃ oc, Lines e π.left env defs oc := by
  induction defs generalizing π env env' n with
  | nil =>
      obtain ⟨m, oc, hleft, -⟩ := (h.twin he).exists_evaluates_left hright
      exact ⟨oc, .last hleft⟩
  | cons d ds ih =>
      have hsource' := hsource d (by simp)
      have hdef := hdefs d (by simp)
      cases hright with
      | letIn hbound hbody =>
          obtain ⟨m, oc, hleft, hdefined⟩ := h.exists_defining hsource' hdef hbound
          cases hdefined with
          | value hstore hbeside =>
              rw [← hstore] at hbody
              obtain ⟨oc, hrest⟩ := ih (fun d hd => hsource d (by simp [hd]))
                (fun d hd => hdefs d (by simp [hd])) hbeside hbody
              exact ⟨oc, .define hleft hrest⟩
      | letIn_bound hbound =>
          obtain ⟨m, oc, hleft, hdefined⟩ := h.exists_defining hsource' hdef hbound
          cases hdefined
          exact ⟨_, .failure hleft⟩

end Nested

/-! ## The two together -/

/-- An answer of a session and the end of a run agree: on the value, as far as it is shown, or on the
error. -/
def Answer.Agrees (a : Answer) (r : Machine.Result) : Prop :=
  match a, r.outcome with
  | .replied reply, .ok v => reply.value.Same v
  | .failed e, .error e' => e = e'
  | _, _ => False

theorem Answer.Tells.agrees {a : Answer} {oc oc' : Outcome} {r : Machine.Result} {π : Pairing}
    (ha : a.Tells oc) (htwin : Outcome.Twin π oc oc') (hr : r.Shows oc') : a.Agrees r := by
  obtain ⟨outcome, steps, store⟩ := r
  cases htwin with
  | failure f =>
      obtain rfl : a = .failed (.failure f) := ha
      obtain rfl : outcome = .error (.failure f) := hr
      rfl
  | value _ _ hv =>
      obtain ⟨reply, rfl, rfl⟩ := ha
      obtain ⟨rfl, -⟩ := hr
      exact hv.same

/-- **A session and nested `let`s agree.** Lines with definitions and one with an expression, without a
budget and without interrupts, are answered like the expression under a `let` for each definition:
the answer to the last line, or to the first one that fails, is how the run of the `let`s ends, and there
is an answer exactly if that run stops. -/
theorem answerTo_agrees_letIns {o : Machine.Options} (hbudget : o.maxSteps ≤ 0)
    (hsignal : o.signal = Machine.quiet) {lines : List (List UInt8)} {defs : List (String × Expr)}
    (hlines : List.Forall₂ (fun l d => Holds l (some d.1) d.2) lines defs)
    (hdefs : ∀ d ∈ defs, isFunction d.2 = true ∨ d.1 ∉ d.2.free) {last : List UInt8} {e : Expr}
    (hlast : Holds last none e) (p : Pos) :
    Option.Rel Answer.Agrees (answerTo o last .empty lines)
      (Machine.run 0 Machine.quiet ⟨.empty, .empty, .letIns p defs e⟩) := by
  have hsource : ∀ d ∈ defs, d.2.isSource = true := by
    clear hdefs
    induction hlines with
    | nil => simp
    | cons hline _ ih => simpa using ⟨hline.isSource, fun x b => ih (x, b)⟩
  have hstart := Pairing.beside_start
  cases ha : answerTo o last .empty lines with
  | some a =>
      obtain ⟨oc, hl⟩ := exists_lines_of_answerTo hbudget hsignal hlast hlines rfl ha
      obtain ⟨a', ha', htells⟩ := exists_answerTo_of_lines hbudget hsignal hlast hlines rfl hl
      obtain rfl : a = a' := Option.some.inj (ha.symm.trans ha')
      obtain ⟨n, oc', π', hright, htwin⟩ :=
        exists_evaluates_letIns (p := p) hlast.isSource hsource hdefs hstart hl
      obtain ⟨r, hstops, hr⟩ := Machine.exists_stops_of_evaluates
        (s := ⟨.empty, .empty, .letIns p defs e⟩) le_rfl hright 0
      rw [Machine.run_eq_some_iff.mpr hstops]
      exact .some (htells.agrees htwin hr)
  | none =>
      cases hr : Machine.run 0 Machine.quiet ⟨.empty, .empty, .letIns p defs e⟩ with
      | none => exact .none
      | some r =>
          obtain ⟨n, oc', hright, -⟩ := (Machine.run_eq_some_iff.mp hr).exists_evaluates le_rfl
          obtain ⟨oc, hl⟩ := exists_lines_of_letIns hlast.isSource hsource hdefs hstart hright
          obtain ⟨a, ha', -⟩ :=
            exists_answerTo_of_lines hbudget hsignal hlast hlines (s := .empty) rfl hl
          rw [ha] at ha'
          cases ha'

/-- A function that uses a name of an earlier line, and a later definition that hides that name. -/
theorem answerTo_agrees_letIns_shadowed :
    Option.Rel Answer.Agrees
      (answerTo ⟨0, Machine.quiet, Log.info⟩ (Text.encode "f n") .empty
        (["let n = 2", "let f = \\x -> n", "let n = f"].map Text.encode))
      (Machine.run 0 Machine.quiet ⟨.empty, .empty, .letIns ⟨1, 1⟩
        [("n", .int ⟨1, 9⟩ 2), ("f", .fn ⟨1, 9⟩ "x" (.var ⟨1, 15⟩ "n")), ("n", .var ⟨1, 9⟩ "f")]
        (.app ⟨1, 1⟩ (.var ⟨1, 1⟩ "f") [.var ⟨1, 3⟩ "n"])⟩) := by
  refine answerTo_agrees_letIns le_rfl rfl ?_ ?_ ?_ ⟨1, 1⟩
  · exact .cons ⟨_, rfl, rfl, rfl⟩ (.cons ⟨_, rfl, rfl, rfl⟩ (.cons ⟨_, rfl, rfl, rfl⟩ .nil))
  · simp [isFunction, Expr.free]
  · exact ⟨_, rfl, rfl, rfl⟩

end FunLang.Session
