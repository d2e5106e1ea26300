import FunLang.Env
import FunLang.Proofs.Machine.Matching

set_option autoImplicit false

/-!
# Instances of patterns

What a pattern matches, said without matching: a value is an instance of a pattern if it has the literals
and constructors of the pattern in the same places, with as many fields as there are arguments
(`Value.InstanceOf`). Places are paths: each number of a path chooses an argument of a constructor. A
name may stand in a pattern more than once, and the last of its places, in the order of reading, is the
one that counts (`Pattern.LastAt`).

The bindings of a match are collected first and then added to an environment. This is the same as to
hand the environment from argument to argument and to give all of it up as soon as one argument fails
(`Pattern.extend`). `bindings?_correct` says for both what they do.
-/

namespace FunLang

/-! ## Instances and places -/

/-- A value is an instance of a pattern. -/
inductive Value.InstanceOf : Value → Pattern → Prop where
  | int (pos : Pos) (n : Int64) : InstanceOf (.int n) (.int pos n)
  | bool (pos : Pos) (b : Bool) : InstanceOf (.bool b) (.bool pos b)
  | var (pos : Pos) (x : String) (v : Value) : InstanceOf v (.var pos x)
  | ctor {pos : Pos} {c d : Constructor} {args : List Pattern} {fields : List Value}
      (hname : d.name = c.name) (hlength : fields.length = args.length)
      (hfields : ∀ (i : Nat) (v : Value) (p : Pattern), fields[i]? = some v → args[i]? = some p →
        v.InstanceOf p) : InstanceOf (.data d fields) (.ctor pos c args)

/-- The part of a pattern at a path. -/
def Pattern.at? : Pattern → List Nat → Option Pattern
  | p, [] => some p
  | .ctor _ _ args, i :: path => args[i]?.bind (·.at? path)
  | _, _ :: _ => none

/-- The part of a value at a path. -/
def Value.at? : Value → List Nat → Option Value
  | v, [] => some v
  | .data _ fields, i :: path => fields[i]?.bind (·.at? path)
  | _, _ :: _ => none

/-- The variable `x` stands at the path. -/
def Pattern.VarAt (p : Pattern) (x : String) (path : List Nat) : Prop :=
  ∃ pos, p.at? path = some (.var pos x)

/-- The path leads to the last place of `x`: in the order of reading, which is that of dictionaries, no
place of `x` comes after it. -/
def Pattern.LastAt (p : Pattern) (x : String) (path : List Nat) : Prop :=
  p.VarAt x path ∧ ∀ path', p.VarAt x path' → ¬ List.Lex (· < ·) path path'

mutual

/-- Adds the bindings of a match to an environment, one by one. If the match fails then the environment
is as before. -/
def Pattern.extend : Pattern → Value → Env → Env × Bool
  | .int _ n, .int m, env => (env, n == m)
  | .bool _ b, .bool c, env => (env, b == c)
  | .var _ x, v, env => (.bind env x v, true)
  | .ctor _ c args, .data d fields, env =>
    if c.same d ∧ fields.length = args.length then
      let (extended, ok) := extendAll args fields env
      if ok then (extended, true) else (env, false)
    else (env, false)
  | _, _, env => (env, false)

/-- Matches each value within the environment that the one before it has left. The first one that
fails ends it, and what has been added by then is still there. -/
def Pattern.extendAll : List Pattern → List Value → Env → Env × Bool
  | p :: ps, v :: vs, env =>
    let (extended, ok) := p.extend v env
    if ok then extendAll ps vs extended else (extended, false)
  | _, _, env => (env, true)

end

/-! ## Which values match -/

/-- A list of arguments matches if there are as many values and each one matches. -/
theorem Pattern.bindingsAll?_isSome_iff {ps : List Pattern} {vs : List Value} :
    (Pattern.bindingsAll? ps vs).isSome = true ↔ vs.length = ps.length ∧
      ∀ (i : Nat) (v : Value) (p : Pattern), vs[i]? = some v → ps[i]? = some p →
        (p.bindings? v).isSome = true := by
  induction ps generalizing vs with
  | nil => cases vs <;> simp [Pattern.bindingsAll?]
  | cons p ps ih =>
      cases vs with
      | nil => simp [Pattern.bindingsAll?]
      | cons v vs =>
          have hcons : (Pattern.bindingsAll? (p :: ps) (v :: vs)).isSome = true ↔
              (p.bindings? v).isSome = true ∧ (Pattern.bindingsAll? ps vs).isSome = true := by
            rw [Pattern.bindingsAll?]
            cases p.bindings? v <;> cases Pattern.bindingsAll? ps vs <;> simp
          rw [hcons, ih]
          constructor
          · rintro ⟨hp, hlength, hall⟩
            refine ⟨by simp [hlength], fun i w q hw hq => ?_⟩
            cases i with
            | zero =>
                simp only [List.getElem?_cons_zero, Option.some.injEq] at hw hq
                exact hw ▸ hq ▸ hp
            | succ i => exact hall i w q (by simpa using hw) (by simpa using hq)
          · rintro ⟨hlength, hall⟩
            exact ⟨hall 0 v p rfl rfl, by simpa using hlength, fun i w q hw hq =>
              hall (i + 1) w q (by simpa using hw) (by simpa using hq)⟩

theorem Value.InstanceOf.isSome {v : Value} {p : Pattern} (h : v.InstanceOf p) :
    (p.bindings? v).isSome = true := by
  induction h with
  | int pos n => simp [Pattern.bindings?]
  | bool pos b => simp [Pattern.bindings?]
  | var pos x v => simp [Pattern.bindings?]
  | ctor hname hlength hfields ih =>
      have hsame := beq_iff_eq.mpr hname.symm
      simp only [Pattern.bindings?, Constructor.same, hsame, if_true]
      exact Pattern.bindingsAll?_isSome_iff.mpr ⟨hlength, ih⟩

theorem Value.instanceOf_of_isSome : ∀ (p : Pattern) (v : Value), (p.bindings? v).isSome = true →
    v.InstanceOf p
  | .missing, v, h => by simp [Pattern.bindings?] at h
  | .int pos n, v, h => by
      cases v with
      | int m =>
          by_cases hnm : n = m
          · exact hnm ▸ .int pos n
          · simp [Pattern.bindings?, hnm] at h
      | _ => simp [Pattern.bindings?] at h
  | .bool pos b, v, h => by
      cases v with
      | bool c =>
          by_cases hbc : b = c
          · exact hbc ▸ .bool pos b
          · simp [Pattern.bindings?, hbc] at h
      | _ => simp [Pattern.bindings?] at h
  | .var pos x, v, _ => .var pos x v
  | .ctor pos c args, v, h => by
      cases v with
      | data d fields =>
          by_cases hsame : c.same d = true
          · simp only [Pattern.bindings?, hsame, if_true] at h
            obtain ⟨hlength, hall⟩ := Pattern.bindingsAll?_isSome_iff.mp h
            refine .ctor (beq_iff_eq.mp hsame).symm hlength fun i w q hw hq => ?_
            have hmem : q ∈ args := List.mem_of_getElem? hq
            exact Value.instanceOf_of_isSome q w (hall i w q hw hq)
          · simp [Pattern.bindings?, hsame] at h
      | _ => simp [Pattern.bindings?] at h

/-- A pattern matches its instances and nothing else. -/
theorem Pattern.bindings?_isSome_iff {p : Pattern} {v : Value} :
    (p.bindings? v).isSome = true ↔ v.InstanceOf p :=
  ⟨Value.instanceOf_of_isSome p v, Value.InstanceOf.isSome⟩

/-! ## Adding the bindings at once or one by one -/

theorem Env.bindAll_append (env : Env) (bs cs : List (String × Value)) :
    env.bindAll (bs ++ cs) = (env.bindAll bs).bindAll cs := by
  unfold Env.bindAll
  rw [List.foldl_append]

mutual

theorem Pattern.extend_eq : ∀ (p : Pattern) (v : Value) (env : Env),
    p.extend v env = (p.bindings? v).elim (env, false) fun bs => (env.bindAll bs, true)
  | .missing, v, env => by simp [Pattern.extend, Pattern.bindings?]
  | .int _ n, v, env => by
      cases v with
      | int m =>
          by_cases h : n = m <;> simp [Pattern.extend, Pattern.bindings?, h, Env.bindAll]
      | _ => simp [Pattern.extend, Pattern.bindings?]
  | .bool _ b, v, env => by
      cases v with
      | bool c =>
          by_cases h : b = c <;> simp [Pattern.extend, Pattern.bindings?, h, Env.bindAll]
      | _ => simp [Pattern.extend, Pattern.bindings?]
  | .var _ x, v, env => by simp [Pattern.extend, Pattern.bindings?, Env.bindAll]
  | .ctor _ c args, v, env => by
      cases v with
      | data d fields =>
          by_cases hsame : c.same d = true
          · by_cases hlength : fields.length = args.length
            · have hall := Pattern.extendAll_eq args fields env hlength
              simp only [Pattern.extend, Pattern.bindings?, hsame, hlength, and_self, if_true]
              cases hbs : Pattern.bindingsAll? args fields with
              | none => simp [hall.2 hbs]
              | some bs => simp [hall.1 bs hbs]
            · -- a match of the arguments would need as many values
              have hnone : Pattern.bindingsAll? args fields = none := by
                by_contra hne
                exact hlength (Pattern.bindingsAll?_isSome_iff.mp (Option.isSome_iff_ne_none.mpr hne)).1
              simp [Pattern.extend, Pattern.bindings?, hsame, hlength, hnone]
          · simp [Pattern.extend, Pattern.bindings?, hsame]
      | _ => simp [Pattern.extend, Pattern.bindings?]

/-- If an argument fails then nothing is said about what has been added by then. -/
theorem Pattern.extendAll_eq : ∀ (ps : List Pattern) (vs : List Value) (env : Env),
    vs.length = ps.length →
      (∀ bs, Pattern.bindingsAll? ps vs = some bs → Pattern.extendAll ps vs env = (env.bindAll bs, true)) ∧
        (Pattern.bindingsAll? ps vs = none → (Pattern.extendAll ps vs env).2 = false)
  | [], vs, env, hlength => by
      obtain rfl : vs = [] := List.length_eq_zero_iff.mp hlength
      simp [Pattern.bindingsAll?, Pattern.extendAll, Env.bindAll]
  | p :: ps, [], env, hlength => by simp at hlength
  | p :: ps, v :: vs, env, hlength => by
      have hp := Pattern.extend_eq p v env
      unfold Pattern.bindingsAll? Pattern.extendAll
      cases hbs : p.bindings? v with
      | none => simp [hp, hbs]
      | some bs =>
          have hps := Pattern.extendAll_eq ps vs (env.bindAll bs) (by simpa using hlength)
          cases hcs : Pattern.bindingsAll? ps vs with
          | none => simp [hp, hbs, hps.2 hcs]
          | some cs => simp [hp, hbs, hps.1 cs hcs, Env.bindAll_append]

end

/-! ## What names are bound to -/

/-- Of several bindings of one name the last one counts. -/
theorem Env.find?_bindAll (env : Env) (bs : List (String × Value)) (x : String) :
    (env.bindAll bs).find? x = ((bs.reverse.lookup x).map Env.Binding.value).or (env.find? x) := by
  induction bs generalizing env with
  | nil => simp [Env.bindAll]
  | cons b bs ih =>
      obtain ⟨y, v⟩ := b
      have hbind : env.bindAll ((y, v) :: bs) = (Env.bind env y v).bindAll bs := rfl
      rw [hbind, ih, List.reverse_cons, List.lookup_append]
      cases hlast : bs.reverse.lookup x with
      | some w => simp
      | none =>
          by_cases hx : y = x
          · simp [Env.find?, hx]
          · have hx' : (x == y) = false := beq_eq_false_iff_ne.mpr fun h => hx h.symm
            simp [Env.find?, hx, List.lookup_cons, hx']

theorem Env.mem_names_bindAll_iff (env : Env) (bs : List (String × Value)) (x : String) :
    x ∈ (env.bindAll bs).names ↔ x ∈ env.names ∨ x ∈ bs.map Prod.fst := by
  induction bs generalizing env with
  | nil => simp [Env.bindAll]
  | cons b bs ih =>
      have hbind : env.bindAll (b :: bs) = (Env.bind env b.1 b.2).bindAll bs := rfl
      rw [hbind, ih, Env.names, Names.mem_insert, List.map_cons, List.mem_cons]
      tauto

theorem lookup_reverse_eq_none {bs : List (String × Value)} {x : String} (hx : x ∉ bs.map Prod.fst) :
    bs.reverse.lookup x = none := by
  rw [List.lookup_eq_none_iff]
  intro b hb
  rw [bne_iff_ne]
  rintro rfl
  exact hx (List.mem_map.mpr ⟨b, List.mem_reverse.mp hb, rfl⟩)

theorem Env.lookup_bindAll_of_notMem {env : Env} {bs : List (String × Value)} {x : String}
    (hx : x ∉ bs.map Prod.fst) (σ : Store) : (env.bindAll bs).lookup σ x = env.lookup σ x := by
  unfold Env.lookup
  rw [Env.find?_bindAll, lookup_reverse_eq_none hx]
  rfl

theorem Env.lookup_bindAll_of_eq_some {env : Env} {bs : List (String × Value)} {x : String} {v : Value}
    (hx : bs.reverse.lookup x = some v) (σ : Store) : (env.bindAll bs).lookup σ x = .found v := by
  unfold Env.lookup
  rw [Env.find?_bindAll, hx]
  rfl

/-! ## The last place of a name -/

theorem Pattern.varAt_nil_iff {p : Pattern} {x : String} :
    p.VarAt x [] ↔ ∃ pos, p = .var pos x := by
  cases p <;> simp [Pattern.VarAt, Pattern.at?]

theorem Pattern.varAt_cons_iff {pos : Pos} {c : Constructor} {args : List Pattern} {x : String} {i : Nat}
    {path : List Nat} :
    (Pattern.ctor pos c args).VarAt x (i :: path) ↔ ∃ p, args[i]? = some p ∧ p.VarAt x path := by
  simp only [Pattern.VarAt, Pattern.at?, Option.bind_eq_some_iff]
  constructor
  · rintro ⟨pos', p, hp, hx⟩
    exact ⟨p, hp, pos', hx⟩
  · rintro ⟨p, hp, pos', hx⟩
    exact ⟨pos', p, hp, hx⟩

mutual

/-- The names that a pattern binds are those that stand in it somewhere. -/
theorem Pattern.mem_binders_iff : ∀ (p : Pattern) (x : String), x ∈ p.binders ↔ ∃ path, p.VarAt x path
  | .missing, x => by
      simp only [Pattern.binders, List.not_mem_nil, false_iff, not_exists]
      rintro (_ | ⟨i, path⟩) ⟨pos, h⟩ <;> simp [Pattern.at?] at h
  | .int _ n, x => by
      simp only [Pattern.binders, List.not_mem_nil, false_iff, not_exists]
      rintro (_ | ⟨i, path⟩) ⟨pos, h⟩ <;> simp [Pattern.at?] at h
  | .bool _ b, x => by
      simp only [Pattern.binders, List.not_mem_nil, false_iff, not_exists]
      rintro (_ | ⟨i, path⟩) ⟨pos, h⟩ <;> simp [Pattern.at?] at h
  | .var pos y, x => by
      rw [Pattern.binders, List.mem_singleton]
      constructor
      · rintro rfl
        exact ⟨[], pos, rfl⟩
      · rintro ⟨_ | ⟨i, path⟩, pos', h⟩ <;> simp [Pattern.at?] at h
        exact h.2.symm
  | .ctor pos c args, x => by
      rw [Pattern.binders, Pattern.mem_bindersAll_iff args x]
      constructor
      · rintro ⟨i, p, path, hp, hx⟩
        exact ⟨i :: path, Pattern.varAt_cons_iff.mpr ⟨p, hp, hx⟩⟩
      · rintro ⟨_ | ⟨i, path⟩, hx⟩
        · simp [Pattern.varAt_nil_iff] at hx
        · obtain ⟨p, hp, hx⟩ := Pattern.varAt_cons_iff.mp hx
          exact ⟨i, p, path, hp, hx⟩

theorem Pattern.mem_bindersAll_iff : ∀ (ps : List Pattern) (x : String), x ∈ Pattern.bindersAll ps ↔
    ∃ (i : Nat) (p : Pattern) (path : List Nat), ps[i]? = some p ∧ p.VarAt x path
  | [], x => by simp [Pattern.bindersAll]
  | p :: ps, x => by
      rw [Pattern.bindersAll, List.mem_append, Pattern.mem_binders_iff p x, Pattern.mem_bindersAll_iff ps x]
      constructor
      · rintro (⟨path, hx⟩ | ⟨i, q, path, hq, hx⟩)
        · exact ⟨0, p, path, rfl, hx⟩
        · exact ⟨i + 1, q, path, by simpa using hq, hx⟩
      · rintro ⟨i, q, path, hq, hx⟩
        cases i with
        | zero =>
            obtain rfl : p = q := by simpa using hq
            exact Or.inl ⟨path, hx⟩
        | succ i => exact Or.inr ⟨i, q, path, by simpa using hq, hx⟩

end

/-- A place in one of the other arguments comes after all those in the first one. -/
theorem Pattern.LastAt.succ {pos : Pos} {c : Constructor} {q : Pattern} {ps : List Pattern} {x : String}
    {i : Nat} {path : List Nat} (h : (Pattern.ctor pos c ps).LastAt x (i :: path)) :
    (Pattern.ctor pos c (q :: ps)).LastAt x ((i + 1) :: path) := by
  have hshift : ∀ j path', (Pattern.ctor pos c (q :: ps)).VarAt x ((j + 1) :: path') ↔
      (Pattern.ctor pos c ps).VarAt x (j :: path') := fun j path' => by
    rw [Pattern.varAt_cons_iff, Pattern.varAt_cons_iff, List.getElem?_cons_succ]
  refine ⟨(hshift i path).mpr h.1, fun path' hx hlex => ?_⟩
  cases hlex with
  | @rel _ _ j path' hij =>
      cases j with
      | zero => exact absurd hij (Nat.not_lt_zero _)
      | succ j => exact h.2 _ ((hshift j path').mp hx) (.rel (Nat.lt_of_succ_lt_succ hij))
  | cons hlex => exact h.2 _ ((hshift i _).mp hx) (.cons hlex)

/-- A place in the first argument is the last one only if no other argument has the name. -/
theorem Pattern.LastAt.zero {pos : Pos} {c : Constructor} {q : Pattern} {ps : List Pattern} {x : String}
    {path : List Nat} (h : q.LastAt x path) (hps : x ∉ Pattern.bindersAll ps) :
    (Pattern.ctor pos c (q :: ps)).LastAt x (0 :: path) := by
  refine ⟨Pattern.varAt_cons_iff.mpr ⟨q, rfl, h.1⟩, fun path' hx hlex => ?_⟩
  cases hlex with
  | @rel _ _ j path' hj =>
      obtain ⟨p, hp, hxp⟩ := Pattern.varAt_cons_iff.mp hx
      cases j with
      | zero => exact absurd hj (Nat.lt_irrefl 0)
      | succ j => exact hps ((Pattern.mem_bindersAll_iff ps x).mpr ⟨j, p, path', by simpa using hp, hxp⟩)
  | cons hlex =>
      obtain ⟨p, hp, hx⟩ := Pattern.varAt_cons_iff.mp hx
      obtain rfl : q = p := by simpa using hp
      exact h.2 _ hx hlex

mutual

/-- Among the bindings of a match, the last one of a name holds the part of the value at the last place
of that name. -/
theorem Pattern.exists_lastAt : ∀ (p : Pattern) (v : Value) (bs : List (String × Value)) (x : String),
    p.bindings? v = some bs → x ∈ p.binders →
      ∃ path w, p.LastAt x path ∧ v.at? path = some w ∧ bs.reverse.lookup x = some w
  | .missing, v, bs, x, _, hx => by simp [Pattern.binders] at hx
  | .int _ n, v, bs, x, _, hx => by simp [Pattern.binders] at hx
  | .bool _ b, v, bs, x, _, hx => by simp [Pattern.binders] at hx
  | .var pos y, v, bs, x, hbs, hx => by
      obtain rfl : x = y := by simpa [Pattern.binders] using hx
      simp only [Pattern.bindings?, Option.some.injEq] at hbs
      refine ⟨[], v, ⟨⟨pos, rfl⟩, ?_⟩, by cases v <;> rfl, by simp [← hbs]⟩
      rintro (_ | ⟨i, path⟩) ⟨pos', h⟩
      · nofun
      · simp [Pattern.at?] at h
  | .ctor pos c args, v, bs, x, hbs, hx => by
      cases v with
      | data d fields =>
          simp only [Pattern.bindings?, Option.ite_none_right_eq_some] at hbs
          obtain ⟨i, path, w, hlast, hw, hlookup⟩ :=
            Pattern.exists_lastAtAll pos c d args fields bs x hbs.2 hx
          exact ⟨i :: path, w, hlast, hw, hlookup⟩
      | _ => simp [Pattern.bindings?] at hbs

theorem Pattern.exists_lastAtAll (pos : Pos) (c d : Constructor) : ∀ (ps : List Pattern)
    (vs : List Value) (bs : List (String × Value)) (x : String), Pattern.bindingsAll? ps vs = some bs →
      x ∈ Pattern.bindersAll ps →
        ∃ i path w, (Pattern.ctor pos c ps).LastAt x (i :: path) ∧
          (Value.data d vs).at? (i :: path) = some w ∧ bs.reverse.lookup x = some w
  | [], vs, bs, x, _, hx => by simp [Pattern.bindersAll] at hx
  | q :: ps, [], bs, x, hbs, _ => by simp [Pattern.bindingsAll?] at hbs
  | q :: ps, v :: vs, bs, x, hbs, hx => by
      rw [Pattern.bindingsAll?] at hbs
      cases hq : q.bindings? v with
      | none => simp [hq] at hbs
      | some bs₁ =>
          cases hps : Pattern.bindingsAll? ps vs with
          | none => simp [hq, hps] at hbs
          | some bs₂ =>
              simp only [hq, hps, Option.some.injEq] at hbs
              rw [← hbs, List.reverse_append, List.lookup_append]
              -- what the other arguments bind comes later than what the first one binds
              by_cases hxs : x ∈ Pattern.bindersAll ps
              · obtain ⟨i, path, w, hlast, hw, hlookup⟩ :=
                  Pattern.exists_lastAtAll pos c d ps vs bs₂ x hps hxs
                exact ⟨i + 1, path, w, hlast.succ, by simpa [Value.at?] using hw, by simp [hlookup]⟩
              · have hxq : x ∈ q.binders := by
                  rw [Pattern.bindersAll, List.mem_append] at hx
                  exact hx.resolve_right hxs
                obtain ⟨path, w, hlast, hw, hlookup⟩ := Pattern.exists_lastAt q v bs₁ x hq hxq
                have hothers : bs₂.reverse.lookup x = none := by
                  apply lookup_reverse_eq_none
                  rw [Pattern.names_of_bindingsAll? hps]
                  exact hxs
                exact ⟨0, path, w, hlast.zero hxs, by simpa [Value.at?] using hw, by simp [hothers, hlookup]⟩

end

/-! ## The result -/

/-- Matching is correct. A value that is no instance of the pattern does not match, and the environment
stays as it is. An instance matches: then the names of the pattern are added to those of the
environment, each one is bound to the part of the value at its last place, and all other names are bound
to what they were bound to before. -/
theorem Pattern.bindings?_correct (p : Pattern) (v : Value) (env : Env) (σ : Store) :
    match p.bindings? v with
    | none => ¬ v.InstanceOf p ∧ p.extend v env = (env, false)
    | some bs => v.InstanceOf p ∧ p.extend v env = (env.bindAll bs, true) ∧
        (∀ x, x ∈ (env.bindAll bs).names ↔ x ∈ env.names ∨ x ∈ p.binders) ∧
        (∀ x ∈ p.binders, ∃ path w, p.LastAt x path ∧ v.at? path = some w ∧
          (env.bindAll bs).lookup σ x = .found w) ∧
        ∀ x, x ∉ p.binders → (env.bindAll bs).lookup σ x = env.lookup σ x := by
  have hinstance := Pattern.bindings?_isSome_iff (p := p) (v := v)
  have hextend := Pattern.extend_eq p v env
  cases hbs : p.bindings? v with
  | none =>
      rw [hbs] at hinstance hextend
      exact ⟨fun h => by simpa using hinstance.mpr h, hextend⟩
  | some bs =>
      rw [hbs] at hinstance hextend
      have hnames : bs.map Prod.fst = p.binders := Pattern.names_of_bindings? hbs
      refine ⟨hinstance.mp rfl, hextend, fun x => ?_, fun x hx => ?_, fun x hx => ?_⟩
      · rw [Env.mem_names_bindAll_iff, hnames]
      · obtain ⟨path, w, hlast, hw, hlookup⟩ := Pattern.exists_lastAt p v bs x hbs hx
        exact ⟨path, w, hlast, hw, Env.lookup_bindAll_of_eq_some hlookup σ⟩
      · exact Env.lookup_bindAll_of_notMem (hnames ▸ hx) σ

/-- A name that stands in a pattern twice is bound to the part at its second place. -/
example (env : Env) (σ : Store) :
    let c : Constructor := ⟨"Pair", [], "Pair", .unknown⟩
    let p : Pattern := .ctor .unknown c [.var .unknown "x", .ctor .unknown c [.var .unknown "x"]]
    (p.extend (.data c [.int 1, .data c [.int 2]]) env).1.lookup σ "x" = .found (.int 2) := by
  rfl

end FunLang
