import FunLang.Proofs.Machine.Instances

set_option autoImplicit false

/-!
# Equality of values

Equality compares constructors by name and functions by identity. An absent value is equal to nothing,
so a value is equal to itself exactly if no part of it is absent (`Value.equal_self_iff`). Equal values
have the same form down to their fields. So they match the same patterns and bind the names in them to
equal values, and with equal arguments added to their fields they are still equal.
-/

namespace FunLang

/-! ## Fields -/

theorem Value.equalAll_iff {vs ws : List Value} :
    Value.equalAll vs ws = true ↔ List.Forall₂ (fun v w => v.equal w = true) vs ws := by
  induction vs generalizing ws with
  | nil => cases ws <;> simp [Value.equalAll]
  | cons v vs ih => cases ws <;> simp [Value.equalAll, ih]

theorem Value.equal_data_iff {c d : Constructor} {vs ws : List Value} :
    (Value.data c vs).equal (.data d ws) = true ↔
      d.name = c.name ∧ List.Forall₂ (fun v w => v.equal w = true) vs ws := by
  rw [Value.equal, Bool.and_eq_true, Value.equalAll_iff, Constructor.same, beq_iff_eq, eq_comm]

/-- Equal values have the same form. -/
theorem Value.rel_of_equal {v w : Value} (h : v.equal w = true) :
    Value.Rel (fun v w => v.equal w = true) v w := by
  cases v with
  | absent => simp [Value.equal] at h
  | int n =>
      cases w with
      | int m =>
          obtain rfl : n = m := by simpa [Value.equal] using h
          exact .int n
      | _ => simp [Value.equal] at h
  | bool b =>
      cases w with
      | bool c =>
          obtain rfl : b = c := by simpa [Value.equal] using h
          exact .bool b
      | _ => simp [Value.equal] at h
  | closure label x body env =>
      cases w with
      | closure label' x' body' env' => exact .closure
      | _ => simp [Value.equal] at h
  | data c vs =>
      cases w with
      | data d ws =>
          obtain ⟨hname, hs⟩ := Value.equal_data_iff.mp h
          exact .data hname hs
      | _ => simp [Value.equal] at h

/-! ## An equivalence -/

mutual

theorem Value.equal_self : ∀ {v : Value}, ¬ v.Part .absent → v.equal v = true
  | .absent, h => absurd .refl h
  | .int _, _ => by simp [Value.equal]
  | .bool _, _ => by simp [Value.equal]
  | .closure .., _ => by simp [Value.equal]
  | .data c fields, h => by
      have hfields : Value.equalAll fields fields = true :=
        Value.equalAll_self fun v hv hpart => h ((Value.Part.refl.field hv).trans hpart)
      simp [Value.equal, Constructor.same, hfields]

theorem Value.equalAll_self : ∀ {vs : List Value}, (∀ v ∈ vs, ¬ v.Part .absent) →
    Value.equalAll vs vs = true
  | [], _ => rfl
  | v :: vs, h => by
      obtain ⟨hv, hvs⟩ := List.forall_mem_cons.mp h
      rw [Value.equalAll, Value.equal_self hv, Value.equalAll_self hvs]
      rfl

end

/-- Each part of a value has a partner in a value that is equal to it. -/
theorem Value.Part.exists_equal {v w u : Value} (hu : v.Part u) (h : v.equal w = true) :
    ∃ u', u.equal u' = true := by
  induction hu with
  | refl => exact ⟨w, h⟩
  | @field c fields u _ hmem ih =>
      obtain ⟨w', hw⟩ := ih
      cases Value.rel_of_equal hw with
      | data _ hs =>
          obtain ⟨i, hi, rfl⟩ := List.mem_iff_getElem.mp hmem
          exact ⟨_, hs.get hi (hs.length_eq ▸ hi)⟩

/-- A value with an absent part is equal to nothing. -/
theorem Value.not_part_absent_of_equal {v w : Value} (h : v.equal w = true) : ¬ v.Part .absent := by
  intro hpart
  obtain ⟨u, hu⟩ := hpart.exists_equal h
  simp [Value.equal] at hu

/-- A value is equal to itself exactly if no part of it is absent. -/
theorem Value.equal_self_iff {v : Value} : v.equal v = true ↔ ¬ v.Part .absent :=
  ⟨Value.not_part_absent_of_equal, Value.equal_self⟩

mutual

/-- Values that are equal to the same value are equal. -/
theorem Value.equal_of_equal : ∀ {u v w : Value}, u.equal v = true → u.equal w = true → v.equal w = true
  | .int a, .int b, .int c, hv, hw => by
      simp only [Value.equal, beq_iff_eq] at hv hw ⊢
      exact hv.symm.trans hw
  | .bool a, .bool b, .bool c, hv, hw => by
      simp only [Value.equal, beq_iff_eq] at hv hw ⊢
      exact hv.symm.trans hw
  | .closure a .., .closure b .., .closure c .., hv, hw => by
      simp only [Value.equal, beq_iff_eq] at hv hw ⊢
      exact hv.symm.trans hw
  | .data a us, .data b vs, .data c ws, hv, hw => by
      simp only [Value.equal, Bool.and_eq_true, Constructor.same, beq_iff_eq] at hv hw ⊢
      exact ⟨hv.1.symm.trans hw.1, Value.equalAll_of_equalAll hv.2 hw.2⟩

theorem Value.equalAll_of_equalAll : ∀ {us vs ws : List Value}, Value.equalAll us vs = true →
    Value.equalAll us ws = true → Value.equalAll vs ws = true
  | [], [], [], _, _ => rfl
  | u :: us, v :: vs, w :: ws, hv, hw => by
      simp only [Value.equalAll, Bool.and_eq_true] at hv hw ⊢
      exact ⟨Value.equal_of_equal hv.1 hw.1, Value.equalAll_of_equalAll hv.2 hw.2⟩

end

theorem Value.equal_symm {v w : Value} (h : v.equal w = true) : w.equal v = true := by
  have hself : v.equal v = true := Value.equal_self_iff.mpr (Value.not_part_absent_of_equal h)
  exact Value.equal_of_equal h hself

theorem Value.equal_trans {u v w : Value} (huv : u.equal v = true) (hvw : v.equal w = true) :
    u.equal w = true :=
  Value.equal_of_equal (Value.equal_symm huv) hvw

/-! ## Matching -/

/-- Of several bindings of one name the last ones are related. -/
theorem BindingsRel.exists_lookup {R : Value → Value → Prop} {bs cs : List (String × Value)}
    (h : BindingsRel R bs cs) {x : String} (hx : x ∈ bs.map Prod.fst) :
    ∃ v w, bs.reverse.lookup x = some v ∧ cs.reverse.lookup x = some w ∧ R v w := by
  have hreverse : BindingsRel R bs.reverse cs.reverse := List.rel_reverse h
  have hmem : x ∈ bs.reverse.map Prod.fst := by simpa using hx
  -- from here on the first binding of the name is the one that counts
  generalize bs.reverse = bs, cs.reverse = cs at hreverse hmem ⊢
  induction hreverse with
  | nil => simp at hmem
  | @cons b c bs cs hbc _ ih =>
      obtain ⟨y, v⟩ := b
      obtain ⟨z, w⟩ := c
      obtain ⟨rfl, hvw⟩ : z = y ∧ R v w := hbc
      by_cases hxz : x = z
      · subst hxz
        exact ⟨v, w, by simp, by simp, hvw⟩
      · have hbeq : (x == z) = false := beq_eq_false_iff_ne.mpr hxz
        have hrest : x ∈ bs.map Prod.fst := by simpa [hxz] using hmem
        simpa [List.lookup_cons, hbeq] using ih hrest

/-- Equal values match the same patterns and bind the names to equal values. -/
theorem Pattern.bindings?_equal (p : Pattern) {v w : Value} (h : v.equal w = true) :
    Option.Rel (BindingsRel fun v w => v.equal w = true) (p.bindings? v) (p.bindings? w) :=
  p.bindings?_rel Value.rel_of_equal h

theorem Pattern.isSome_bindings?_of_equal (p : Pattern) {v w : Value} (h : v.equal w = true) :
    (p.bindings? v).isSome = (p.bindings? w).isSome := by
  have hrel := p.bindings?_equal h
  generalize p.bindings? v = r, p.bindings? w = r' at hrel
  cases hrel <;> rfl

theorem Pattern.exists_lookup_of_equal {p : Pattern} {v w : Value} {bs cs : List (String × Value)}
    {x : String} (h : v.equal w = true) (hbs : p.bindings? v = some bs) (hcs : p.bindings? w = some cs)
    (hx : x ∈ p.binders) (env : Env) (σ : Store) :
    ∃ a b, (env.bindAll bs).lookup σ x = .found a ∧ (env.bindAll cs).lookup σ x = .found b ∧
      a.equal b = true := by
  have hrel := p.bindings?_equal h
  rw [hbs, hcs] at hrel
  cases hrel with
  | some hrel =>
      rw [← Pattern.names_of_bindings? hbs] at hx
      obtain ⟨a, b, ha, hb, hab⟩ := hrel.exists_lookup hx
      exact ⟨a, b, Env.lookup_bindAll_of_eq_some ha σ, Env.lookup_bindAll_of_eq_some hb σ, hab⟩

/-! ## Application -/

/-- Equal constructed values stay equal with equal fields added to them. -/
theorem Value.equal_concat {c d : Constructor} {vs ws : List Value} {a b : Value}
    (h : (Value.data c vs).equal (.data d ws) = true) (hab : a.equal b = true) :
    (Value.data c (vs ++ [a])).equal (.data d (ws ++ [b])) = true := by
  obtain ⟨hname, hs⟩ := Value.equal_data_iff.mp h
  exact Value.equal_data_iff.mpr ⟨hname, List.rel_append hs (.cons hab .nil)⟩

/-- **Equality is a congruence.** It is an equivalence of the values without absent parts. Equal values
match the same patterns, and whatever the environment, each name of the pattern is bound to equal values
then. Equal constructed values stay equal when they are applied to equal values. -/
theorem Value.equal_congruence :
    Equivalence (fun v w : {v : Value // ¬ v.Part .absent} => v.1.equal w.1 = true) ∧
    (∀ v w : Value, v.equal w = true → ∀ (p : Pattern) (env : Env) (σ : Store),
      ((p.bindings? v).isSome = true ↔ (p.bindings? w).isSome = true) ∧
      ∀ bs cs, p.bindings? v = some bs → p.bindings? w = some cs → ∀ x ∈ p.binders, ∃ a b,
        (env.bindAll bs).lookup σ x = .found a ∧ (env.bindAll cs).lookup σ x = .found b ∧
          a.equal b = true) ∧
    ∀ (c d : Constructor) (vs ws : List Value) (a b : Value),
      (Value.data c vs).equal (.data d ws) = true → a.equal b = true →
        ∃ v w, (Value.data c vs).addField? a = some v ∧ (Value.data d ws).addField? b = some w ∧
          v.equal w = true := by
  refine ⟨⟨fun v => Value.equal_self_iff.mpr v.2, Value.equal_symm, Value.equal_trans⟩, ?_, ?_⟩
  · intro v w h p env σ
    refine ⟨by rw [p.isSome_bindings?_of_equal h], fun bs cs hbs hcs x hx => ?_⟩
    exact Pattern.exists_lookup_of_equal h hbs hcs hx env σ
  · intro c d vs ws a b h hab
    exact ⟨_, _, rfl, rfl, Value.equal_concat h hab⟩

/-- Constructors of one name that different types declare, a function as a field, and a name that stands
in the pattern twice. -/
theorem Value.equal_congruence_renamed :
    let c : Constructor := ⟨"P", [.name ⟨1, 12⟩ "Int"], "T", ⟨1, 10⟩⟩
    let d : Constructor := ⟨"P", [], "U", ⟨2, 10⟩⟩
    let f : Value := .closure 7 "y" (.var ⟨3, 5⟩ "y") .empty
    let v : Value := .data c [.int 3, .data d [f]]
    let w : Value := .data d [.int 3, .data c [f]]
    let p : Pattern := .ctor ⟨4, 1⟩ d [.var ⟨4, 3⟩ "x", .ctor ⟨4, 6⟩ d [.var ⟨4, 8⟩ "x"]]
    let bs : List (String × Value) := [("x", .int 3), ("x", f)]
    v.equal w = true ∧ p.bindings? v = some bs ∧ p.bindings? w = some bs ∧
      (∃ a b, (Env.empty.bindAll bs).lookup .empty "x" = .found a ∧
        (Env.empty.bindAll bs).lookup .empty "x" = .found b ∧ a.equal b = true) ∧
      ∃ v' w', v.addField? f = some v' ∧ w.addField? f = some w' ∧ v'.equal w' = true := by
  intro c d f v w p bs
  have hvw : v.equal w = true := by decide
  have hf : f.equal f = true := by decide
  have hv : p.bindings? v = some bs := rfl
  have hw : p.bindings? w = some bs := rfl
  obtain ⟨-, hmatch, happly⟩ := Value.equal_congruence
  exact ⟨hvw, hv, hw, (hmatch v w hvw p .empty .empty).2 bs bs hv hw "x" (by decide),
    happly c d _ _ f f hvw hf⟩

end FunLang
