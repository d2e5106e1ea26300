import FunLang.Proofs.Lint.Kinds

set_option autoImplicit false

/-!
# Names and what they refer to

An expression mentions names: it uses some and binds some. A mention has a place, which is the node of
the expression where it stands, and what a name refers to is told from the places alone. A binder is in
force within the node that binds it, and if a pattern binds several names, from each of them on to the
right. Of all binders of a name that are in force at a place the nearest one counts: it comes after all
the others (`RefersTo`).

What linting has to say about the names of an expression is `scopeWarnings`. Nothing in it goes through the
expression with a scope in hand; that the walk of linting, which does, comes to the same is shown in
`Proofs.Lint.Scoping`.
-/

namespace FunLang

mutual

/-- The variables of a pattern, from left to right. -/
def Pattern.variables : Pattern → List (Pos × String)
  | .var p x => [(p, x)]
  | .ctor _ _ args => variablesAll args
  | _ => []

def Pattern.variablesAll : List Pattern → List (Pos × String)
  | [] => []
  | p :: ps => p.variables ++ variablesAll ps

end

namespace Lint

/-! ## Places -/

/-- A node of an expression, as the way from it up to the whole expression: its number among the
children of its parent, then the number of the parent, and so on. -/
abbrev Node := List Nat

/-- A place in an expression. The names that one node binds are told apart by their numbers. -/
structure Place where
  node : Node
  index : Nat
deriving DecidableEq, Repr

/-- What is bound at `p` is in force at `q`: within the node of `p`, or at the same node further right. -/
def Place.Before (p q : Place) : Prop :=
  p.node <:+ q.node ∧ p.node ≠ q.node ∨ p.node = q.node ∧ p.index < q.index

instance (p q : Place) : Decidable (p.Before q) := inferInstanceAs (Decidable (_ ∨ _))

theorem Place.Before.asymm {p q : Place} (h : p.Before q) : ¬ q.Before p := by
  rintro (⟨hsuffix, hne⟩ | ⟨heq, hlt⟩)
  · rcases h with ⟨hsuffix', -⟩ | ⟨heq', -⟩
    · exact hne (hsuffix.eq_of_length_le hsuffix'.length_le)
    · exact hne heq'.symm
  · rcases h with ⟨-, hne'⟩ | ⟨-, hlt'⟩
    · exact hne' heq.symm
    · omega

theorem Place.Before.ne {p q : Place} (h : p.Before q) : p ≠ q := by
  rintro rfl
  exact h.asymm h

/-- At the first place of a node there is in force what is so around the node. -/
theorem Place.before_zero_iff {p : Place} {node : Node} :
    p.Before ⟨node, 0⟩ ↔ p.node <:+ node ∧ p.node ≠ node := by
  simp [Place.Before]

/-- Within a node there is in force what is so at the node, and what the node binds. -/
theorem Place.before_child_iff {p : Place} {node : Node} {n : Nat} :
    p.Before ⟨n :: node, 0⟩ ↔ p.node <:+ node := by
  rw [Place.before_zero_iff, List.suffix_cons_iff]
  constructor
  · rintro ⟨heq | hsuffix, hne⟩
    · exact absurd heq hne
    · exact hsuffix
  · intro hsuffix
    refine ⟨Or.inr hsuffix, fun heq => ?_⟩
    have hlength := hsuffix.length_le
    rw [heq, List.length_cons] at hlength
    omega

/-! ## Mentions -/

/-- A name at a place of an expression. -/
structure Mention where
  name : String
  pos : Pos
  place : Place
  /-- The kind of a binder; a use has none. -/
  kind? : Option BinderKind
deriving DecidableEq, Repr

namespace Mention

def isBinder (m : Mention) : Bool := m.kind?.isSome

/-- A binder as messages speak of it. -/
def binder (m : Mention) : Binder := ⟨m.name, m.kind?.getD .letBinding, m.pos, false⟩

@[simp] theorem binder_name (m : Mention) : m.binder.name = m.name := rfl

/-- The node lies in the bound expression of the `let` that binds the name. -/
def Pending (b : Mention) (node : Node) : Prop :=
  b.kind? = some .letBinding ∧ (0 :: b.place.node) <:+ node

instance (b : Mention) (node : Node) : Decidable (b.Pending node) := inferInstanceAs (Decidable (_ ∧ _))

end Mention

/-- The variables of a pattern at the node of an alternative. -/
def patternMentions (node : Node) (p : Pattern) : List Mention :=
  p.variables.zipIdx.map fun v => ⟨v.1.2, v.1.1, ⟨node, v.2⟩, some .patternVariable⟩

mutual

/-- The names that an expression mentions, which stands at a node. Of the two parts of a `let` the bound
expression is child 0. -/
def mentions (node : Node) : Expr → List Mention
  | .var p x => [⟨x, p, ⟨node, 0⟩, none⟩]
  | .binary _ _ l r => mentions (0 :: node) l ++ mentions (1 :: node) r
  | .cond _ c t e => mentions (0 :: node) c ++ (mentions (1 :: node) t ++ mentions (2 :: node) e)
  | .fn p x body => ⟨x, p, ⟨node, 0⟩, some .parameter⟩ :: mentions (0 :: node) body
  | .app _ f args => mentions (0 :: node) f ++ mentionsAll node 1 args
  | .letIn p x bound body =>
    ⟨x, p, ⟨node, 0⟩, some .letBinding⟩ :: (mentions (0 :: node) bound ++ mentions (1 :: node) body)
  | .annot _ e _ => mentions (0 :: node) e
  | .cases _ s alts => mentions (0 :: node) s ++ mentionsAlts node 1 alts
  | _ => []

/-- The names that the children of a node mention, the first of which has number `n`. -/
def mentionsAll (node : Node) (n : Nat) : List Expr → List Mention
  | [] => []
  | e :: es => mentions (n :: node) e ++ mentionsAll node (n + 1) es

/-- The same for alternatives. An alternative is a node, and its body a child of it. -/
def mentionsAlts (node : Node) (n : Nat) : List Alt → List Mention
  | [] => []
  | .mk _ p e :: alts =>
    (patternMentions (n :: node) p ++ mentions (0 :: n :: node) e) ++ mentionsAlts node (n + 1) alts

end

/-! ## References -/

section References

variable (ms : List Mention)

/-- A binder of the name that is in force where the name is mentioned. -/
def InForce (m b : Mention) : Prop :=
  b ∈ ms ∧ b.isBinder = true ∧ b.name = m.name ∧ b.place.Before m.place

/-- The nearest binder of the name: what a use resolves to, and what another binder shadows. -/
def RefersTo (m b : Mention) : Prop :=
  InForce ms m b ∧ ∀ c ∈ ms, InForce ms m c → c = b ∨ c.place.Before b.place

instance (m b : Mention) : Decidable (InForce ms m b) := inferInstanceAs (Decidable (_ ∧ _))

instance (m b : Mention) : Decidable (RefersTo ms m b) := inferInstanceAs (Decidable (_ ∧ _))

/-- A use of a binder. In the bound expression of a `let` its own name is a recursive call and does not
count. -/
def Uses (m b : Mention) : Prop :=
  m.isBinder = false ∧ RefersTo ms m b ∧ ¬ b.Pending m.place.node

instance (m b : Mention) : Decidable (Uses ms m b) := inferInstanceAs (Decidable (_ ∧ _))

/-- The warning about a name that is used where no binder of it is in force. -/
def unboundWarnings (m : Mention) : List Diagnostic :=
  if ∃ b ∈ ms, InForce ms m b then [] else [unboundWarning m.pos m.name]

/-- The warning about a binder that is not used. -/
def unusedWarnings (b : Mention) : List Diagnostic :=
  if isHidden b.name ∨ ∃ m ∈ ms, Uses ms m b then [] else [unusedWarning b.binder]

/-- The warning about a binder that shadows another one. -/
def shadowWarnings (b : Mention) : List Diagnostic :=
  if isHidden b.name then []
  else (ms.find? (RefersTo ms b ·)).toList.map fun c => shadowWarning b.binder c.binder

/-- The warnings about a mention among others. -/
def warningsAbout (m : Mention) : List Diagnostic :=
  if m.isBinder then unusedWarnings ms m ++ shadowWarnings ms m else unboundWarnings ms m

variable {ms}

theorem RefersTo.unique {m b c : Mention} (hb : RefersTo ms m b) (hc : RefersTo ms m c) : b = c := by
  rcases hb.2 c hc.1.1 hc.1 with rfl | hbefore
  · rfl
  rcases hc.2 b hb.1.1 hb.1 with rfl | hbefore'
  · rfl
  exact absurd hbefore' hbefore.asymm

theorem find?_refersTo {m b : Mention} (h : RefersTo ms m b) : ms.find? (RefersTo ms m ·) = some b := by
  cases hfind : ms.find? (RefersTo ms m ·) with
  | none => exact absurd (decide_eq_true h) (List.find?_eq_none.mp hfind b h.1.1)
  | some c =>
      have hc : RefersTo ms m c := by simpa using List.find?_some hfind
      rw [hc.unique h]

end References

/-- All warnings about the names of an expression. -/
def scopeWarnings (e : Expr) : List Diagnostic :=
  (mentions [] e).flatMap (warningsAbout (mentions [] e))

/-! ## Where mentions stand -/

theorem suffix_of_cons_suffix {k : Nat} {node a : Node} (h : (k :: node) <:+ a) : node <:+ a :=
  (List.suffix_cons k node).trans h

theorem node_of_mem_patternMentions {node : Node} {p : Pattern} {m : Mention}
    (h : m ∈ patternMentions node p) : m.place.node = node := by
  obtain ⟨v, -, rfl⟩ := List.mem_map.mp h
  rfl

theorem kind?_of_mem_patternMentions {node : Node} {p : Pattern} {m : Mention}
    (h : m ∈ patternMentions node p) : m.kind? = some .patternVariable := by
  obtain ⟨v, -, rfl⟩ := List.mem_map.mp h
  rfl

mutual

/-- The mentions of an expression stand at its node or within. -/
theorem suffix_of_mem_mentions {m : Mention} : ∀ {e : Expr} {node : Node},
    m ∈ mentions node e → node <:+ m.place.node
  | .var .., node, h => by
      rw [List.mem_singleton.mp h]
  | .binary .., node, h => by
      rcases List.mem_append.mp h with h | h
      · exact suffix_of_cons_suffix (suffix_of_mem_mentions h)
      · exact suffix_of_cons_suffix (suffix_of_mem_mentions h)
  | .cond .., node, h => by
      rcases List.mem_append.mp h with h | h
      · exact suffix_of_cons_suffix (suffix_of_mem_mentions h)
      rcases List.mem_append.mp h with h | h
      · exact suffix_of_cons_suffix (suffix_of_mem_mentions h)
      · exact suffix_of_cons_suffix (suffix_of_mem_mentions h)
  | .fn .., node, h => by
      rcases List.mem_cons.mp h with rfl | h
      · exact List.suffix_refl _
      · exact suffix_of_cons_suffix (suffix_of_mem_mentions h)
  | .app .., node, h => by
      rcases List.mem_append.mp h with h | h
      · exact suffix_of_cons_suffix (suffix_of_mem_mentions h)
      · obtain ⟨k, -, hk⟩ := suffix_of_mem_mentionsAll h
        exact suffix_of_cons_suffix hk
  | .letIn .., node, h => by
      rcases List.mem_cons.mp h with rfl | h
      · exact List.suffix_refl _
      rcases List.mem_append.mp h with h | h
      · exact suffix_of_cons_suffix (suffix_of_mem_mentions h)
      · exact suffix_of_cons_suffix (suffix_of_mem_mentions h)
  | .annot .., node, h => suffix_of_cons_suffix (suffix_of_mem_mentions h)
  | .cases .., node, h => by
      rcases List.mem_append.mp h with h | h
      · exact suffix_of_cons_suffix (suffix_of_mem_mentions h)
      · obtain ⟨k, -, hk⟩ := suffix_of_mem_mentionsAlts h
        exact suffix_of_cons_suffix hk
  | .missing, _, h | .int .., _, h | .bool .., _, h | .ctor .., _, h | .value _, _, h | .within .., _, h
  | .tying .., _, h | .custom .., _, h | .wrapped .., _, h => by simp [mentions] at h

theorem suffix_of_mem_mentionsAll {m : Mention} : ∀ {es : List Expr} {node : Node} {n : Nat},
    m ∈ mentionsAll node n es → ∃ k ≥ n, (k :: node) <:+ m.place.node
  | [], _, _, h => by simp [mentionsAll] at h
  | e :: es, node, n, h => by
      rcases List.mem_append.mp h with h | h
      · exact ⟨n, le_rfl, suffix_of_mem_mentions h⟩
      · obtain ⟨k, hk, hm⟩ := suffix_of_mem_mentionsAll h
        exact ⟨k, by omega, hm⟩

theorem suffix_of_mem_mentionsAlts {m : Mention} : ∀ {alts : List Alt} {node : Node} {n : Nat},
    m ∈ mentionsAlts node n alts → ∃ k ≥ n, (k :: node) <:+ m.place.node
  | [], _, _, h => by simp [mentionsAlts] at h
  | .mk _ p e :: alts, node, n, h => by
      rcases List.mem_append.mp h with h | h
      · rcases List.mem_append.mp h with h | h
        · exact ⟨n, le_rfl, by rw [node_of_mem_patternMentions h]⟩
        · exact ⟨n, le_rfl, suffix_of_cons_suffix (suffix_of_mem_mentions h)⟩
      · obtain ⟨k, hk, hm⟩ := suffix_of_mem_mentionsAlts h
        exact ⟨k, by omega, hm⟩

end

/-- Mentions within the children of a node from number `n` on. -/
def Inside (node : Node) (n : Nat) (list : List Mention) : Prop :=
  ∀ m ∈ list, ∃ k ≥ n, (k :: node) <:+ m.place.node

theorem Inside.append {node : Node} {n : Nat} {list list' : List Mention} (h : Inside node n list)
    (h' : Inside node n list') : Inside node n (list ++ list') :=
  List.forall_mem_append.mpr ⟨h, h'⟩

theorem inside_mentions {n k : Nat} (h : n ≤ k) (node : Node) (e : Expr) :
    Inside node n (mentions (k :: node) e) :=
  fun _ hm => ⟨k, h, suffix_of_mem_mentions hm⟩

theorem inside_mentionsAll {n k : Nat} (h : n ≤ k) (node : Node) (es : List Expr) :
    Inside node n (mentionsAll node k es) := by
  intro m hm
  obtain ⟨l, hl, hsuffix⟩ := suffix_of_mem_mentionsAll hm
  exact ⟨l, h.trans hl, hsuffix⟩

theorem inside_mentionsAlts {n k : Nat} (h : n ≤ k) (node : Node) (alts : List Alt) :
    Inside node n (mentionsAlts node k alts) := by
  intro m hm
  obtain ⟨l, hl, hsuffix⟩ := suffix_of_mem_mentionsAlts hm
  exact ⟨l, h.trans hl, hsuffix⟩

/-! ## The mentions from a node on -/

/-- All mentions at a node and within. -/
def Owns (ms : List Mention) (node : Node) (list : List Mention) : Prop :=
  ∀ m, m ∈ list ↔ m ∈ ms ∧ node <:+ m.place.node

/-- All mentions within the children of a node from number `n` on. -/
def OwnsFrom (ms : List Mention) (node : Node) (n : Nat) (list : List Mention) : Prop :=
  ∀ m, m ∈ list ↔ m ∈ ms ∧ ∃ k ≥ n, (k :: node) <:+ m.place.node

theorem not_cons_suffix_self (k : Nat) (node : Node) : ¬ (k :: node) <:+ node := by
  intro h
  have hlength := h.length_le
  rw [List.length_cons] at hlength
  omega

/-- Different children of a node have nothing in common. -/
theorem eq_of_cons_suffix {k l : Nat} {node a : Node} (hk : (k :: node) <:+ a) (hl : (l :: node) <:+ a) :
    k = l := by
  have hsuffix := List.suffix_of_suffix_length_le hk hl (by simp)
  have heq := hsuffix.eq_of_length_le (by simp)
  exact (List.cons.inj heq).1

section Owns

variable {ms own rest list : List Mention} {node : Node} {n : Nat}

/-- What stands at the node itself is apart from what stands within its children. -/
theorem Owns.children (h : Owns ms node (own ++ rest)) (hown : ∀ m ∈ own, m.place.node = node)
    (hrest : Inside node 0 rest) : OwnsFrom ms node 0 rest := by
  intro m
  constructor
  · intro hm
    exact ⟨((h m).mp (List.mem_append_right _ hm)).1, hrest m hm⟩
  · rintro ⟨hm, k, -, hk⟩
    rcases List.mem_append.mp ((h m).mpr ⟨hm, suffix_of_cons_suffix hk⟩) with hmem | hmem
    · rw [hown m hmem] at hk
      exact absurd hk (not_cons_suffix_self k node)
    · exact hmem

theorem Owns.mem_own (h : Owns ms node (own ++ rest)) (hrest : Inside node 0 rest) {m : Mention}
    (hm : m ∈ ms) (hnode : m.place.node = node) : m ∈ own := by
  have hmem := (h m).mpr ⟨hm, by rw [hnode]⟩
  rcases List.mem_append.mp hmem with hmem | hmem
  · exact hmem
  · obtain ⟨k, -, hk⟩ := hrest m hmem
    rw [hnode] at hk
    exact absurd hk (not_cons_suffix_self k node)

theorem OwnsFrom.split (h : OwnsFrom ms node n (list ++ rest))
    (hlist : ∀ m ∈ list, (n :: node) <:+ m.place.node)
    (hrest : Inside node (n + 1) rest) :
    Owns ms (n :: node) list ∧ OwnsFrom ms node (n + 1) rest := by
  constructor
  · intro m
    constructor
    · intro hm
      exact ⟨((h m).mp (List.mem_append_left _ hm)).1, hlist m hm⟩
    · rintro ⟨hm, hn⟩
      rcases List.mem_append.mp ((h m).mpr ⟨hm, n, le_rfl, hn⟩) with hmem | hmem
      · exact hmem
      · obtain ⟨k, hk, hsuffix⟩ := hrest m hmem
        have heq := eq_of_cons_suffix hn hsuffix
        omega
  · intro m
    constructor
    · intro hm
      exact ⟨((h m).mp (List.mem_append_right _ hm)).1, hrest m hm⟩
    · rintro ⟨hm, k, hk, hsuffix⟩
      rcases List.mem_append.mp ((h m).mpr ⟨hm, k, by omega, hsuffix⟩) with hmem | hmem
      · have heq := eq_of_cons_suffix (hlist m hmem) hsuffix
        omega
      · exact hmem

theorem OwnsFrom.split_mentions {e : Expr} (h : OwnsFrom ms node n (mentions (n :: node) e ++ rest))
    (hrest : Inside node (n + 1) rest) :
    Owns ms (n :: node) (mentions (n :: node) e) ∧ OwnsFrom ms node (n + 1) rest :=
  h.split (fun _ => suffix_of_mem_mentions) hrest

/-- The last child. -/
theorem OwnsFrom.last_mentions {e : Expr} (h : OwnsFrom ms node n (mentions (n :: node) e)) :
    Owns ms (n :: node) (mentions (n :: node) e) :=
  (OwnsFrom.split_mentions (by rwa [List.append_nil]) (by simp [Inside])).1

end Owns

end Lint

end FunLang
