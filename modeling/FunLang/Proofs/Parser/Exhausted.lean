import FunLang.Proofs.Parser.Messages

set_option autoImplicit false

/-!
# Parsers at the end of the input

Once nothing but the end of the input is left, a parser finds no token that it looks for and repeats
nothing that it reads several of. What it reports then is that the input ends, and it stays where it is
(`Idles`).
-/

namespace FunLang.Parser

/-- All messages speak of the end of the input. -/
def State.AboutEnd (s : State) : Prop := ∀ d ∈ s.diags, MentionsEnd d.message

/-- Nothing but the end of the input is left, and no message is about anything else. -/
structure State.Exhausted (s : State) : Prop where
  tail : s.rest.tail = []
  current : s.current.kind = .eof
  messages : s.AboutEnd

theorem State.Exhausted.advance {s : State} (h : s.Exhausted) : s.advance.Exhausted := by
  have htail := h.tail
  unfold State.advance
  cases hs : s.rest with
  | nil => exact h
  | cons t ts =>
      obtain rfl : ts = [] := by simpa [hs] using htail
      exact ⟨rfl, rfl, h.messages⟩

theorem State.Exhausted.complain {s : State} (h : s.Exhausted) (t : Token) {message : String}
    (hm : MentionsEnd message) : (s.complain t message).Exhausted := by
  unfold State.complain
  split
  · exact h
  · refine ⟨h.tail, h.current, fun d hd => ?_⟩
    rcases List.mem_append.mp hd with hd | hd
    · exact h.messages d hd
    · rw [List.mem_singleton.mp hd]
      exact hm

variable {α β : Type}

/-- At the end of the input the parser stays there. -/
def Idles (p : Parser α) : Prop := ∀ s, s.Exhausted → (p.run s).2.Exhausted

/-! ## Basic parsers -/

theorem idles_pure (a : α) : Idles (pure a : Parser α) := fun _ => id

theorem Idles.bind {p : Parser α} {f : α → Parser β} (hp : Idles p) (hf : ∀ a, Idles (f a)) :
    Idles (p >>= f) := fun s hs => hf _ _ (hp s hs)

theorem idles_current_bind {f : Token → Parser β} (h : ∀ t, t.kind = .eof → Idles (f t)) :
    Idles (current >>= f) := fun s hs => h s.current hs.current s hs

theorem idles_check_bind {k : TokenKind} {f : Bool → Parser β} (h : ∀ b, Idles (f b)) :
    Idles (check k >>= f) := fun s hs => h _ s hs

/-- A check for any other token fails. -/
theorem idles_check_bind_of_ne {k : TokenKind} (hk : k ≠ .eof) {f : Bool → Parser β}
    (h : Idles (f false)) : Idles (check k >>= f) := by
  intro s hs
  have hcheck : (s.current.kind == k) = false := by simpa [hs.current] using hk.symm
  show ((f (s.current.kind == k)).run s).2.Exhausted
  rw [hcheck]
  exact h s hs

theorem idles_advance : Idles advance := fun _ hs => hs.advance

theorem idles_complain (t : Token) {message : String} (hm : MentionsEnd message) :
    Idles (complain t message) := fun _ hs => hs.complain t hm

theorem idles_expect_bind {k : TokenKind} (hk : k ≠ .eof) {f : Token → Parser β}
    (h : ∀ t, t.kind = .eof → Idles (f t)) : Idles (expect k >>= f) := by
  intro s hs
  have hmessage := (mentionsEnd_expected_iff k s.current).mpr
    (Token.mentionsEnd_describe_of_eof hs.current)
  have hexpect : (expect k).run s
      = (s.current, s.complain s.current s!"expected {spelling k}, got {s.current.describe}") := by
    have hne : s.current.kind ≠ k := by
      rw [hs.current]
      exact hk.symm
    show (if s.current.kind = k then _ else _ : Parser Token).run s = _
    rw [if_neg hne]
    rfl
  show ((f ((expect k).run s).1).run ((expect k).run s).2).2.Exhausted
  rw [hexpect]
  exact h _ hs.current _ (hs.complain _ hmessage)

theorem idles_accept_bind {k : TokenKind} (hk : k ≠ .eof) {f : Bool → Parser β}
    (h : Idles (f false)) : Idles (accept k >>= f) := by
  unfold accept
  rw [bind_assoc]
  exact idles_check_bind_of_ne hk h

theorem idles_binderName : Idles binderName := by
  refine idles_expect_bind (by simp) fun t ht => ?_
  rw [if_pos (by simp [ht])]
  exact idles_pure _

theorem idles_badPattern {t : Token} (ht : t.kind = .eof) : Idles (badPattern t) := by
  have hmessage := (mentionsEnd_inPattern_iff t).mpr (Token.mentionsEnd_describe_of_eof ht)
  refine (idles_complain t hmessage).bind fun _ => idles_check_bind fun b => ?_
  split
  · exact idles_advance.bind fun _ => idles_pure _
  · exact idles_pure _

theorem idles_badAtom {t : Token} (ht : t.kind = .eof) : Idles (badAtom t) := by
  have hmessage := (mentionsEnd_inExpression_iff t).mpr (Token.mentionsEnd_describe_of_eof ht)
  refine (idles_complain t hmessage).bind fun _ => idles_check_bind fun b => ?_
  split
  · exact idles_advance.bind fun _ => idles_pure _
  · exact idles_pure _

/-! ## Types and patterns -/

theorem idles_atomicType (n : Nat) : Idles (atomicType n) := by
  cases n with
  | zero => exact idles_pure _
  | succ n =>
      rw [atomicType]
      refine idles_current_bind fun t ht => ?_
      have hmessage := (mentionsEnd_expectedType_iff t).mpr (Token.mentionsEnd_describe_of_eof ht)
      simp only [ht]
      exact (idles_complain t hmessage).bind fun _ => idles_advance.bind fun _ => idles_pure _

theorem idles_type (n : Nat) : Idles (type n) := by
  cases n with
  | zero => exact idles_pure _
  | succ n =>
      rw [type]
      refine (idles_atomicType n).bind fun t => idles_check_bind_of_ne (by simp) ?_
      exact idles_pure t

theorem idles_atomicTypes (n : Nat) : Idles (atomicTypes n) := by
  cases n with
  | zero => exact idles_pure _
  | succ n =>
      rw [atomicTypes]
      refine idles_current_bind fun t ht => ?_
      rw [if_neg (by simp [ht, startsAtomicType])]
      exact idles_pure _

theorem idles_atomicPattern (n : Nat) : Idles (atomicPattern n) := by
  cases n with
  | zero => exact idles_pure _
  | succ n =>
      rw [atomicPattern]
      refine idles_current_bind fun t ht => ?_
      simp only [ht]
      exact idles_badPattern ht

theorem idles_pattern (n : Nat) : Idles (pattern n) := by
  cases n with
  | zero => exact idles_pure _
  | succ n =>
      rw [pattern]
      refine idles_current_bind fun t ht => ?_
      rw [if_neg (by simp [ht])]
      exact idles_atomicPattern n

theorem idles_atomicPatterns (n : Nat) : Idles (atomicPatterns n) := by
  cases n with
  | zero => exact idles_pure _
  | succ n =>
      rw [atomicPatterns]
      refine idles_current_bind fun t ht => ?_
      rw [if_neg (by simp [ht, startsPattern])]
      exact idles_pure _

/-! ## Expressions -/

theorem idles_atom (n : Nat) : Idles (atom n) := by
  cases n with
  | zero => exact idles_pure _
  | succ n =>
      rw [atom]
      refine idles_current_bind fun t ht => ?_
      simp only [ht]
      exact idles_badAtom ht

theorem idles_atoms (n : Nat) : Idles (atoms n) := by
  cases n with
  | zero => exact idles_pure _
  | succ n =>
      rw [atoms]
      refine idles_current_bind fun t ht => ?_
      rw [if_neg (by simp [ht, startsAtom])]
      exact idles_pure _

theorem idles_application (n : Nat) : Idles (application n) := by
  cases n with
  | zero => exact idles_pure _
  | succ n =>
      rw [application]
      refine (idles_atom n).bind fun func => idles_current_bind fun t ht => ?_
      rw [if_neg (by simp [ht, startsAtom])]
      exact idles_pure func

theorem idles_operators (n min : Nat) (left : Expr) : Idles (operators n min left) := by
  cases n with
  | zero => exact idles_pure _
  | succ n =>
      rw [operators]
      refine idles_current_bind fun t ht => ?_
      simp only [ht, level, true_or, if_true]
      exact idles_pure left

theorem idles_binary (n min : Nat) : Idles (binary n min) := by
  cases n with
  | zero => exact idles_pure _
  | succ n =>
      rw [binary]
      exact (idles_application n).bind fun left => idles_operators n min left

theorem idles_expr (n : Nat) : Idles (expr n) := by
  cases n with
  | zero => exact idles_pure _
  | succ n =>
      rw [expr]
      refine idles_current_bind fun t ht => ?_
      simp only [ht]
      exact idles_binary n 1

theorem idles_alternatives (n : Nat) : Idles (alternatives n) := by
  cases n with
  | zero => exact idles_pure _
  | succ n =>
      rw [alternatives]
      refine idles_current_bind fun t _ => (idles_pattern n).bind fun p => ?_
      refine idles_expect_bind (by simp) fun _ _ => (idles_expr n).bind fun body => ?_
      exact idles_accept_bind (by simp) (idles_pure _)

/-! ## Declarations and lines -/

theorem idles_synchronize (n : Nat) : Idles (synchronize n) := by
  cases n with
  | zero => exact idles_pure _
  | succ n =>
      rw [synchronize]
      refine idles_current_bind fun t ht => ?_
      simp only [ht]
      exact idles_pure _

theorem idles_constructors (n : Nat) (type : String) : Idles (constructors n type) := by
  cases n with
  | zero => exact idles_pure _
  | succ n =>
      rw [constructors]
      refine idles_expect_bind (by simp) fun t ht => ?_
      rw [if_pos (by simp [ht])]
      exact idles_pure _

theorem idles_dataDecls (n : Nat) : Idles (dataDecls n) := by
  cases n with
  | zero => exact idles_pure _
  | succ n =>
      rw [dataDecls]
      exact idles_check_bind_of_ne (by simp) (idles_pure _)

end FunLang.Parser
