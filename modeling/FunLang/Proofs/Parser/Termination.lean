import FunLang.Proofs.Parser.Code
import FunLang.Proofs.Parser.Ensures
import FunLang.Proofs.Parser.Stepwise
import FunLang.Proofs.Token.Scan

set_option autoImplicit false

/-!
# Parsers come to an end

The codes of the parsers come to an end on every sequence of tokens, and the bound `depthFor` does not
cut anything off: the bounded parsers give what the codes lead to (`Call.exists_runs`). Calls are ranked
for this (`Call.rank`), so that eight times the number of tokens that are left, and the rank, gets
smaller with each call. A call before a token has been passed over has a smaller rank, and a token that
has been passed over makes up for any rank.

Not every parser passes over a token: at one that it does not expect a parser may complain and stay. What
repeats itself therefore starts with a parser that takes a token, or is entered only behind one
(`Consumes`).

No parser goes back to a token that it has left, neither at its end nor in between
(`Code.Runs.ordered`).
-/

namespace FunLang.Parser

variable {α β : Type} {n : Nat} {s : State}

/-! ## What all codes do -/

section Moves

variable {ρ : State → State → Prop} (hρ : Stepwise ρ)
  (hinsert : ∀ (s : State) (c : Constructor), ρ s { s with ctors := s.ctors.insert c })
include hρ hinsert

theorem Basic.moves (b : Basic α) : Moves ρ b.parser := by
  cases b with
  | current => exact hρ.refl
  | peek => exact hρ.refl
  | check k => exact hρ.refl
  | advance => exact moves_advance hρ
  | expect k => exact moves_expect hρ k
  | accept k => exact moves_accept hρ k
  | ctor? name => exact hρ.refl
  | complain t message => exact moves_complain hρ t message
  | intLiteral t negative => exact moves_intLiteral hρ t negative
  | binderName => exact moves_binderName hρ
  | badAtom t => exact moves_badAtom hρ t
  | badPattern t => exact moves_badPattern hρ t
  | declare c => exact moves_declare hρ hinsert c

theorem Code.moves_within_of_calls (hcalls : ∀ {γ : Type} (c : Call γ), Moves ρ (c.parser n))
    (code : Code α) : Moves ρ (code.within n) := by
  induction code with
  | done a => exact moves_pure hρ a
  | basic b next ih => exact (b.moves hρ hinsert).bind hρ ih
  | call c next ih => exact (hcalls c).bind hρ ih

theorem Call.moves (n : Nat) (c : Call α) : Moves ρ (c.parser n) := by
  induction n generalizing α with
  | zero => cases c <;> exact moves_pure hρ _
  | succ n ih =>
      rw [c.parser_succ]
      exact c.body.moves_within_of_calls hρ hinsert ih

theorem Code.moves_within (n : Nat) (code : Code α) : Moves ρ (code.within n) :=
  code.moves_within_of_calls hρ hinsert (Call.moves hρ hinsert n)

/-- The relation holds between any two states of a run, in the order in which they come. -/
theorem Code.Runs.ordered {code : Code α} {s s' : State} {trail : List State} {a : α}
    (h : code.Runs s trail a s') :
    ρ s s' ∧ (∀ u ∈ trail, ρ s u ∧ ρ u s') ∧ trail.Pairwise ρ := by
  induction h with
  | done a s => exact ⟨hρ.refl s, by simp, .nil⟩
  | @basic _ _ b _ s _ _ _ _ ih =>
      obtain ⟨hend, hmid, hpairs⟩ := ih
      have hstep : ρ s (b.parser.run s).2 := b.moves hρ hinsert s
      refine ⟨hρ.trans hstep hend, ?_, .cons (fun u hu => (hmid u hu).1) hpairs⟩
      intro u hu
      rcases List.mem_cons.mp hu with rfl | hu
      · exact ⟨hstep, hend⟩
      · exact ⟨hρ.trans hstep (hmid u hu).1, (hmid u hu).2⟩
  | call _ _ ihcall ihnext =>
      obtain ⟨hend, hmid, hpairs⟩ := ihcall
      obtain ⟨hend', hmid', hpairs'⟩ := ihnext
      refine ⟨hρ.trans hend hend', ?_, List.pairwise_append.mpr ⟨hpairs, hpairs', ?_⟩⟩
      · intro u hu
        rcases List.mem_append.mp hu with hu | hu
        · exact ⟨(hmid u hu).1, hρ.trans (hmid u hu).2 hend'⟩
        · exact ⟨hρ.trans hend (hmid' u hu).1, (hmid' u hu).2⟩
      · -- what comes before the end of the call comes before all that is behind it
        intro u hu v hv
        exact hρ.trans (hmid u hu).2 (hmid' v hv).1

end Moves

/-- No token comes back. -/
theorem stepwise_suffix : Stepwise fun s s' => s'.rest <:+ s.rest where
  refl _ := List.suffix_rfl
  trans h h' := h'.trans h
  advance s := by
    unfold State.advance
    cases hs : s.rest with
    | nil => simp [hs]
    | cons t ts => exact List.suffix_cons t ts
  report _ _ := List.suffix_rfl
  complain s t message := by
    unfold State.complain
    split <;> exact List.suffix_rfl

theorem Basic.length_le (b : Basic α) (s : State) :
    (b.parser.run s).2.rest.length ≤ s.rest.length :=
  (b.moves stepwise_suffix (fun _ _ => List.suffix_rfl) s).length_le

theorem Code.length_within_le (n : Nat) (code : Code α) (s : State) :
    ((code.within n).run s).2.rest.length ≤ s.rest.length :=
  (code.moves_within stepwise_suffix (fun _ _ => List.suffix_rfl) n s).length_le

theorem Call.length_le (n : Nat) (c : Call α) (s : State) :
    ((c.parser n).run s).2.rest.length ≤ s.rest.length :=
  (c.moves stepwise_suffix (fun _ _ => List.suffix_rfl) n s).length_le

/-! ## What takes a token -/

/-- At least one token is passed over. -/
def Consumes (p : Parser α) (s : State) : Prop := (p.run s).2.rest.length < s.rest.length

theorem consumes_advance (h : s.current.kind ≠ .eof) : Consumes advance s := by
  have hlength := (State.reads_advance h).length
  show s.advance.rest.length < s.rest.length
  simp only [List.length_singleton] at hlength
  omega

theorem consumes_expect {k : TokenKind} (hk : k ≠ .eof) (h : s.current.kind = k) :
    Consumes (expect k) s := by
  show ((if s.current.kind = k then advance else _ : Parser Token).run s).2.rest.length < _
  rw [if_pos h]
  exact consumes_advance (h ▸ hk)

theorem State.rest_complain (s : State) (t : Token) (message : String) :
    (s.complain t message).rest = s.rest := by
  unfold State.complain
  split <;> rfl

theorem State.current_complain (s : State) (t : Token) (message : String) :
    (s.complain t message).current = s.current := by
  rw [State.current, State.rest_complain, ← State.current]

/-- A token that is complained about and passed over. -/
theorem consumes_bad (h : s.current.kind ≠ .eof) (t : Token) (message : String) (a : α) :
    Consumes (do
      complain t message
      if !(← check .eof) then
        let _ ← advance
      return a) s := by
  have hkind : ((s.complain t message).current.kind == .eof) = false := by
    simpa [State.current_complain] using h
  have hlt : Consumes advance (s.complain t message) :=
    consumes_advance (by rwa [State.current_complain])
  unfold Consumes at hlt ⊢
  rw [State.rest_complain] at hlt
  show ((if !((s.complain t message).current.kind == .eof) then (do let _ ← advance; return a)
    else return a : Parser α).run (s.complain t message)).2.rest.length < s.rest.length
  rw [hkind]
  exact hlt

/-- A code takes a token if its first step does. -/
theorem consumes_basic_bind {b : Basic α} (h : Consumes b.parser s) (f : α → Code β) :
    Consumes ((liftM b >>= f : Code β).within n) s :=
  Nat.lt_of_le_of_lt ((f (b.parser.run s).1).length_within_le n (b.parser.run s).2) h

theorem consumes_current_bind {f : Token → Code β} (h : Consumes ((f s.current).within n) s) :
    Consumes ((liftM Basic.current >>= f : Code β).within n) s := h

theorem consumes_peek_bind {f : Token → Code β} (h : Consumes ((f s.peek).within n) s) :
    Consumes ((liftM Basic.peek >>= f : Code β).within n) s := h

theorem consumes_complain_bind {t : Token} {message : String} {f : Unit → Code β}
    (h : Consumes ((f ()).within n) (s.complain t message)) :
    Consumes ((liftM (Basic.complain t message) >>= f : Code β).within n) s := by
  unfold Consumes at h
  rw [State.rest_complain] at h
  exact h

section Atomic

variable (h : s.current.kind ≠ .eof)
include h

theorem consumes_advance_bind (f : Token → Code β) :
    Consumes ((liftM Basic.advance >>= f : Code β).within n) s :=
  consumes_basic_bind (b := .advance) (consumes_advance h) f

variable (hn : 0 < n)
include hn

theorem consumes_atomicType : Consumes (atomicType n) s := by
  obtain ⟨n, rfl⟩ := Nat.exists_eq_add_one.mpr hn
  show Consumes (Call.atomicType.parser (n + 1)) s
  rw [Call.parser_succ]
  apply consumes_current_bind
  split
  · exact consumes_advance_bind h _
  · exact consumes_advance_bind h _
  · exact consumes_advance_bind h _
  · exact consumes_advance_bind h _
  · apply consumes_complain_bind
    apply consumes_advance_bind
    rwa [State.current_complain]

theorem consumes_atomicPattern : Consumes (atomicPattern n) s := by
  have hbad : Consumes (badPattern s.current) s := consumes_bad h _ _ _
  obtain ⟨n, rfl⟩ := Nat.exists_eq_add_one.mpr hn
  show Consumes (Call.atomicPattern.parser (n + 1)) s
  rw [Call.parser_succ]
  apply consumes_current_bind
  split
  · exact consumes_advance_bind h _
  · -- the token behind a minus sign is looked at first
    apply consumes_peek_bind
    split
    · exact consumes_advance_bind h _
    · exact hbad
  · exact consumes_advance_bind h _
  · exact consumes_advance_bind h _
  · exact consumes_advance_bind h _
  · exact consumes_advance_bind h _
  · exact hbad

theorem consumes_atom : Consumes (atom n) s := by
  have hbad : Consumes (badAtom s.current) s := consumes_bad h _ _ _
  obtain ⟨n, rfl⟩ := Nat.exists_eq_add_one.mpr hn
  show Consumes (Call.atom.parser (n + 1)) s
  rw [Call.parser_succ]
  apply consumes_current_bind
  split
  · exact consumes_advance_bind h _
  · apply consumes_peek_bind
    split
    · exact consumes_advance_bind h _
    · exact hbad
  · exact consumes_advance_bind h _
  · exact consumes_advance_bind h _
  · exact consumes_advance_bind h _
  · exact consumes_advance_bind h _
  · exact hbad

end Atomic

/-- A code that starts with a token that is there. -/
theorem consumes_expect_bind {k : TokenKind} (hk : k ≠ .eof) (h : s.current.kind = k)
    (f : Token → Code β) : Consumes ((liftM (Basic.expect k) >>= f : Code β).within n) s :=
  consumes_basic_bind (b := .expect k) (consumes_expect hk h) f

theorem consumes_importDecl (h : s.current.kind = .kwImport) :
    Consumes (Code.importDecl.within n) s :=
  consumes_expect_bind (by simp) h _

theorem consumes_dataDecl (h : s.current.kind = .kwData) : Consumes (Code.dataDecl.within n) s :=
  consumes_expect_bind (by simp) h _

/-! ## Room for calls -/

/-- How many calls may follow one another before the next token is passed over. -/
def Call.rank : {α : Type} → Call α → Nat
  | _, .atomicType | _, .atomicPattern | _, .atom | _, .operators .. => 1
  | _, .type | _, .atomicTypes | _, .pattern | _, .atomicPatterns | _, .atoms => 2
  | _, .application => 3
  | _, .binary _ => 4
  | _, .expr => 5
  | _, .alternatives => 6
  -- these call others only behind a token
  | _, .importDecls | _, .synchronize | _, .constructors _ | _, .dataDecls => 1

theorem Call.rank_mem (c : Call α) : 1 ≤ c.rank ∧ c.rank ≤ 6 := by
  cases c <;> simp [Call.rank]

/-- The bound `n` suffices for a call. -/
def Call.Fits (n : Nat) (c : Call α) (s : State) : Prop := 8 * s.rest.length + c.rank ≤ n

theorem Call.Fits.pos {c : Call α} (h : c.Fits n s) : 0 < n := by
  have hrank := c.rank_mem
  unfold Call.Fits at h
  omega

/-- Before a token has been passed over, a call of smaller rank fits. -/
theorem Call.Fits.lower {c : Call α} {c' : Call β} {s' : State} (h : c.Fits (n + 1) s)
    (hs : s'.rest.length ≤ s.rest.length) (hrank : c'.rank < c.rank) :
    c'.Fits n s' := by
  unfold Call.Fits at h ⊢
  omega

/-- Behind a token any call fits. -/
theorem Call.Fits.behind {c : Call α} {c' : Call β} {s' : State} (h : c.Fits (n + 1) s)
    (hs : s'.rest.length < s.rest.length) : c'.Fits n s' := by
  have hrank := c.rank_mem
  have hrank' := c'.rank_mem
  unfold Call.Fits at h ⊢
  omega

/-- The bound `n` suffices for all calls of a code. -/
def Code.Room (n : Nat) : Code α → State → Prop
  | .done _, _ => True
  | .basic b next, s => (next (b.parser.run s).1).Room n (b.parser.run s).2
  | .call c next, s => c.Fits n s ∧ (next ((c.parser n).run s).1).Room n ((c.parser n).run s).2

section Room

theorem room_pure (a : α) : (pure a : Code α).Room n s := trivial

theorem room_basic (b : Basic α) : (liftM b : Code α).Room n s := trivial

theorem room_call {c : Call α} (h : c.Fits n s) : (liftM c : Code α).Room n s := ⟨h, trivial⟩

variable {f : α → Code β}

theorem room_basic_bind {b : Basic α}
    (h : ∀ a s', s'.rest.length ≤ s.rest.length → (f a).Room n s') :
    (liftM b >>= f : Code β).Room n s :=
  h _ _ (b.length_le s)

theorem room_current_bind {f : Token → Code β} (h : (f s.current).Room n s) :
    (liftM Basic.current >>= f : Code β).Room n s := h

theorem room_check_bind {k : TokenKind} {f : Bool → Code β} (h : (f (s.current.kind == k)).Room n s) :
    (liftM (Basic.check k) >>= f : Code β).Room n s := h

theorem room_ctor?_bind {name : String} {f : Option Constructor → Code β}
    (h : (f (s.ctors.find? name)).Room n s) : (liftM (Basic.ctor? name) >>= f : Code β).Room n s := h

theorem room_advance_bind {f : Token → Code β} (hs : s.current.kind ≠ .eof)
    (h : ∀ t s', s'.rest.length < s.rest.length → (f t).Room n s') :
    (liftM Basic.advance >>= f : Code β).Room n s :=
  h _ _ (consumes_advance hs)

theorem room_expect_bind {k : TokenKind} {f : Token → Code β} (hk : k ≠ .eof)
    (h : ∀ s', s'.rest.length ≤ s.rest.length → (s.current.kind = k → s'.rest.length < s.rest.length) →
      (f s.current).Room n s') :
    (liftM (Basic.expect k) >>= f : Code β).Room n s := by
  have htoken : ((expect k).run s).1 = s.current := by
    show ((if s.current.kind = k then advance else _ : Parser Token).run s).1 = _
    split <;> rfl
  show (f ((expect k).run s).1).Room n ((expect k).run s).2
  rw [htoken]
  exact h _ ((Basic.expect k).length_le s) (consumes_expect hk)

theorem room_accept_bind {k : TokenKind} {f : Bool → Code β} (hk : k ≠ .eof)
    (htaken : ∀ s', s'.rest.length < s.rest.length → (f true).Room n s')
    (hleft : (f false).Room n s) : (liftM (Basic.accept k) >>= f : Code β).Room n s := by
  have hrun : (accept k).run s = if s.current.kind = k then (true, s.advance) else (false, s) := by
    show (if (s.current.kind == k) = true then _ else pure false : Parser Bool).run s = _
    by_cases h : s.current.kind = k
    · simp only [h, beq_self_eq_true, if_true]
      rfl
    · simp only [h, beq_iff_eq, if_false]
      rfl
  show (f ((accept k).run s).1).Room n ((accept k).run s).2
  rw [hrun]
  split
  · rename_i h
    exact htaken _ (consumes_advance (h ▸ hk))
  · exact hleft

theorem Code.Room.bind {x : Code α} (hx : x.Room n s)
    (hf : (f ((x.within n).run s).1).Room n ((x.within n).run s).2) : (x >>= f : Code β).Room n s := by
  induction x generalizing s with
  | done a => exact hf
  | basic b next ih => exact ih _ hx hf
  | call c next ih => exact ⟨hx.1, ih _ hx.2 hf⟩

theorem room_call_bind {c : Call α} (hc : c.Fits n s)
    (h : ∀ a s', s'.rest.length ≤ s.rest.length → (f a).Room n s') :
    (liftM c >>= f : Code β).Room n s :=
  ⟨hc, h _ _ (c.length_le n s)⟩

end Room

/-! ## The calls of each parser

If a bound that is larger by one suffices for a parser, then the bound suffices for all that it calls.
-/

/-- A parser that repeats another one. The next round starts behind the tokens of this one. -/
theorem room_round {c : Call α} {rounds : Call (List α)} (h : rounds.Fits (n + 1) s)
    (hrank : c.rank < rounds.rank) (htakes : 0 < n → Consumes (c.parser n) s) :
    (do let a ← liftM c; let as ← liftM rounds; pure (a :: as) : Code (List α)).Room n s := by
  have hfits : c.Fits n s := h.lower le_rfl hrank
  have htakes := htakes hfits.pos
  exact ⟨hfits, room_call_bind (h.behind htakes) fun _ _ _ => room_pure _⟩

theorem room_type (h : Call.type.Fits (n + 1) s) : Call.type.body.Room n s := by
  refine room_call_bind (h.lower le_rfl (by decide)) fun param s₁ h₁ => room_check_bind ?_
  split
  · rename_i harrow
    refine room_advance_bind (by simp_all) fun arrow s₂ h₂ => ?_
    exact room_call_bind (h.behind (h₂.trans_le h₁)) fun _ _ _ => room_pure _
  · exact room_pure param

theorem room_atomicType (h : Call.atomicType.Fits (n + 1) s) : Call.atomicType.body.Room n s := by
  refine room_current_bind ?_
  split
  · exact room_basic_bind fun _ _ _ => room_pure _
  · exact room_basic_bind fun _ _ _ => room_pure _
  · exact room_basic_bind fun _ _ _ => room_pure _
  · rename_i hkind
    refine room_advance_bind (by simp [hkind]) fun _ s₁ h₁ => ?_
    exact room_call_bind (h.behind h₁) fun _ _ _ => room_basic_bind fun _ _ _ => room_pure _
  · exact room_basic_bind fun _ _ _ => room_basic_bind fun _ _ _ => room_pure _

theorem room_atomicTypes (h : Call.atomicTypes.Fits (n + 1) s) : Call.atomicTypes.body.Room n s := by
  refine room_current_bind ?_
  split
  · rename_i hstarts
    have heof : s.current.kind ≠ .eof := by
      intro heof
      simp [heof, startsAtomicType] at hstarts
    exact room_round h (by decide) (consumes_atomicType heof)
  · exact room_pure _

theorem room_pattern (h : Call.pattern.Fits (n + 1) s) : Call.pattern.body.Room n s := by
  have hatomic : (liftM Call.atomicPattern : Code Pattern).Room n s :=
    room_call (h.lower le_rfl (by decide))
  refine room_current_bind ?_
  split
  · rename_i hkind
    refine room_ctor?_bind ?_
    split
    · refine room_advance_bind (by simp [hkind]) fun _ s₁ h₁ => ?_
      exact room_call_bind (h.behind h₁) fun _ _ _ => room_pure _
    · exact hatomic
  · exact hatomic

theorem room_atomicPattern (h : Call.atomicPattern.Fits (n + 1) s) :
    Call.atomicPattern.body.Room n s := by
  refine room_current_bind ?_
  split
  · exact room_basic_bind fun _ _ _ => room_basic_bind fun _ _ _ => room_pure _
  · refine room_basic_bind fun _ _ _ => ?_
    split
    · refine room_basic_bind fun _ _ _ => room_basic_bind fun _ _ _ => ?_
      exact room_basic_bind fun _ _ _ => room_pure _
    · exact room_basic _
  · exact room_basic_bind fun _ _ _ => room_pure _
  · exact room_basic_bind fun _ _ _ => room_pure _
  · refine room_basic_bind fun _ _ _ => room_basic_bind fun _ _ _ => ?_
    split <;> exact room_pure _
  · rename_i hkind
    refine room_advance_bind (by simp [hkind]) fun _ s₁ h₁ => ?_
    exact room_call_bind (h.behind h₁) fun _ _ _ => room_basic_bind fun _ _ _ => room_pure _
  · exact room_basic _

theorem room_atomicPatterns (h : Call.atomicPatterns.Fits (n + 1) s) :
    Call.atomicPatterns.body.Room n s := by
  refine room_current_bind ?_
  split
  · rename_i hstarts
    have heof : s.current.kind ≠ .eof := by
      intro heof
      simp [heof, startsPattern] at hstarts
    exact room_round h (by decide) (consumes_atomicPattern heof)
  · exact room_pure _

theorem room_expr (h : Call.expr.Fits (n + 1) s) : Call.expr.body.Room n s := by
  refine room_current_bind ?_
  have hfunction : s.current.kind ≠ .eof → (do
      let t ← liftM Basic.advance
      let param ← liftM Basic.binderName
      let _ ← liftM (Basic.expect .arrow)
      let body ← liftM Call.expr
      pure (Expr.fn t.pos param body) : Code Expr).Room n s := by
    intro heof
    refine room_advance_bind heof fun _ s₁ h₁ => ?_
    refine room_basic_bind fun _ s₂ h₂ => room_basic_bind fun _ s₃ h₃ => ?_
    exact room_call_bind (h.behind (by omega)) fun _ _ _ => room_pure _
  split
  · rename_i hkind
    refine room_expect_bind (by simp) fun s₁ _ h₁ => room_basic_bind fun _ s₂ h₂ => ?_
    have h₁ := h₁ hkind
    refine room_basic_bind fun _ s₃ h₃ => room_call_bind (h.behind (by omega)) fun _ s₄ h₄ => ?_
    refine room_basic_bind fun _ s₅ h₅ => ?_
    exact room_call_bind (h.behind (by omega)) fun _ _ _ => room_pure _
  · rename_i hkind
    exact hfunction (by simp [hkind])
  · rename_i hkind
    exact hfunction (by simp [hkind])
  · rename_i hkind
    refine room_expect_bind (by simp) fun s₁ _ h₁ => ?_
    have h₁ := h₁ hkind
    refine room_call_bind (h.behind h₁) fun _ s₂ h₂ => room_basic_bind fun _ s₃ h₃ => ?_
    refine room_call_bind (h.behind (by omega)) fun _ s₄ h₄ => room_basic_bind fun _ s₅ h₅ => ?_
    exact room_call_bind (h.behind (by omega)) fun _ _ _ => room_pure _
  · rename_i hkind
    refine room_expect_bind (by simp) fun s₁ _ h₁ => ?_
    have h₁ := h₁ hkind
    refine room_call_bind (h.behind h₁) fun _ s₂ h₂ => room_basic_bind fun _ s₃ h₃ => ?_
    refine room_basic_bind fun _ s₄ h₄ => ?_
    exact room_call_bind (h.behind (by omega)) fun _ _ _ => room_pure _
  · exact room_call (h.lower le_rfl (by decide))

theorem room_alternatives (h : Call.alternatives.Fits (n + 1) s) :
    Call.alternatives.body.Room n s := by
  refine room_current_bind (room_call_bind (h.lower le_rfl (by decide)) fun _ s₁ h₁ => ?_)
  -- neither the pattern nor the arrow need be there, so it is the rank that gets smaller
  refine room_basic_bind fun _ s₂ h₂ => ?_
  refine room_call_bind (h.lower (h₂.trans h₁) (by decide)) fun _ s₃ h₃ => ?_
  refine room_accept_bind (by simp) (fun s₄ h₄ => ?_) (room_pure _)
  exact room_call_bind (h.behind (by omega)) fun _ _ _ => room_pure _

theorem room_binary {min : Nat} (h : (Call.binary min).Fits (n + 1) s) :
    (Call.binary min).body.Room n s := by
  refine room_call_bind (h.lower le_rfl (by simp [Call.rank])) fun _ s₁ h₁ => ?_
  exact room_call (h.lower h₁ (by simp [Call.rank]))

theorem room_operators {min : Nat} {left : Expr} (h : (Call.operators min left).Fits (n + 1) s) :
    (Call.operators min left).body.Room n s := by
  refine room_current_bind ?_
  dsimp only
  split
  · exact room_pure _
  · rename_i hlevel
    have heof : s.current.kind ≠ .eof := by
      intro heof
      simp [heof, level] at hlevel
    refine room_advance_bind heof fun _ s₁ h₁ => room_call_bind (h.behind h₁) fun _ s₂ h₂ => ?_
    exact room_call (h.behind (h₂.trans_lt h₁))

theorem room_application (h : Call.application.Fits (n + 1) s) : Call.application.body.Room n s := by
  refine room_call_bind (h.lower le_rfl (by decide)) fun func s₁ h₁ => room_current_bind ?_
  split
  · exact room_call_bind (h.lower h₁ (by decide)) fun _ _ _ => room_pure _
  · exact room_pure func

theorem room_atoms (h : Call.atoms.Fits (n + 1) s) : Call.atoms.body.Room n s := by
  refine room_current_bind ?_
  split
  · rename_i hstarts
    have heof : s.current.kind ≠ .eof := by
      intro heof
      simp [heof, startsAtom] at hstarts
    exact room_round h (by decide) (consumes_atom heof)
  · exact room_pure _

theorem room_atom (h : Call.atom.Fits (n + 1) s) : Call.atom.body.Room n s := by
  refine room_current_bind ?_
  split
  · exact room_basic_bind fun _ _ _ => room_basic_bind fun _ _ _ => room_pure _
  · refine room_basic_bind fun _ _ _ => ?_
    split
    · refine room_basic_bind fun _ _ _ => room_basic_bind fun _ _ _ => ?_
      exact room_basic_bind fun _ _ _ => room_pure _
    · exact room_basic _
  · exact room_basic_bind fun _ _ _ => room_pure _
  · exact room_basic_bind fun _ _ _ => room_pure _
  · refine room_basic_bind fun _ _ _ => room_basic_bind fun _ _ _ => ?_
    split <;> exact room_pure _
  · rename_i hkind
    refine room_advance_bind (by simp [hkind]) fun _ s₁ h₁ => ?_
    refine room_call_bind (h.behind h₁) fun _ s₂ h₂ => room_basic_bind fun _ s₃ h₃ => ?_
    split
    · refine room_basic_bind fun _ s₄ h₄ => room_call_bind (h.behind (by omega)) fun _ _ _ => ?_
      exact room_basic_bind fun _ _ _ => room_pure _
    · exact room_basic_bind fun _ _ _ => room_pure _
  · exact room_basic _

theorem room_importDecls (h : Call.importDecls.Fits (n + 1) s) : Call.importDecls.body.Room n s := by
  refine room_check_bind ?_
  split
  · rename_i hkind
    have hdecl : Code.importDecl.Room n s :=
      room_basic_bind fun _ _ _ => room_basic_bind fun _ _ _ => room_basic_bind fun _ _ _ => room_pure _
    refine hdecl.bind (room_call_bind (h.behind ?_) fun _ _ _ => room_pure _)
    exact consumes_importDecl (by simpa using hkind)
  · exact room_pure _

theorem room_synchronize (h : Call.synchronize.Fits (n + 1) s) : Call.synchronize.body.Room n s := by
  refine room_current_bind ?_
  split
  · exact room_pure _
  · exact room_pure _
  · exact room_pure _
  · exact room_basic_bind fun _ _ _ => room_pure _
  · rename_i heof _ _ _
    exact room_advance_bind heof fun _ _ h₁ => room_call (h.behind h₁)

theorem room_constructors {owner : String} (h : (Call.constructors owner).Fits (n + 1) s) :
    (Call.constructors owner).body.Room n s := by
  refine room_expect_bind (by simp) fun s₁ _ h₁ => ?_
  split
  · exact room_pure _
  · rename_i hkind
    have h₁ := h₁ (by simpa using hkind)
    refine room_call_bind (h.behind h₁) fun _ s₂ h₂ => room_basic_bind fun _ s₃ h₃ => ?_
    refine room_accept_bind (by simp) (fun s₄ h₄ => ?_) (room_pure _)
    exact room_call_bind (h.behind (by omega)) fun _ _ _ => room_pure _

/-- A declaration fits behind its keyword. -/
theorem room_dataDecl {c : Call α} (h : c.Fits (n + 1) s) (hkind : s.current.kind = .kwData) :
    Code.dataDecl.Room n s := by
  refine room_expect_bind (by simp) fun s₁ _ h₁ => room_basic_bind fun name s₂ h₂ => ?_
  have h₁ := h₁ hkind
  split
  · exact room_call_bind (h.behind (by omega)) fun _ _ _ => room_pure _
  · refine room_basic_bind fun _ s₃ h₃ => room_call_bind (h.behind (by omega)) fun cs s₄ h₄ => ?_
    cases cs with
    | none => exact room_call_bind (h.behind (by omega)) fun _ _ _ => room_pure _
    | some cs => exact room_basic_bind fun _ _ _ => room_pure _

theorem room_dataDecls (h : Call.dataDecls.Fits (n + 1) s) : Call.dataDecls.body.Room n s := by
  refine room_check_bind ?_
  split
  · rename_i hkind
    have hkind : s.current.kind = .kwData := by simpa using hkind
    refine (room_dataDecl h hkind).bind (room_call_bind (h.behind ?_) fun _ _ _ => room_pure _)
    exact consumes_dataDecl hkind
  · exact room_pure _

theorem Call.room {c : Call α} (h : c.Fits (n + 1) s) : c.body.Room n s := by
  cases c with
  | type => exact room_type h
  | atomicType => exact room_atomicType h
  | atomicTypes => exact room_atomicTypes h
  | pattern => exact room_pattern h
  | atomicPattern => exact room_atomicPattern h
  | atomicPatterns => exact room_atomicPatterns h
  | expr => exact room_expr h
  | alternatives => exact room_alternatives h
  | binary min => exact room_binary h
  | operators min left => exact room_operators h
  | application => exact room_application h
  | atoms => exact room_atoms h
  | atom => exact room_atom h
  | importDecls => exact room_importDecls h
  | synchronize => exact room_synchronize h
  | constructors owner => exact room_constructors h
  | dataDecls => exact room_dataDecls h

/-! ## Runs -/

/-- A code runs, with the result that it has with bounded calls, if the bound suffices for its calls and
these run. -/
theorem Code.Room.exists_runs {code : Code α}
    (hcalls : ∀ {γ : Type} (c : Call γ) (s : State), c.Fits n s →
      ∃ trail, c.body.Runs s trail ((c.parser n).run s).1 ((c.parser n).run s).2)
    (h : code.Room n s) :
    ∃ trail, code.Runs s trail ((code.within n).run s).1 ((code.within n).run s).2 := by
  induction code generalizing s with
  | done a => exact ⟨[], .done a s⟩
  | basic b next ih =>
      obtain ⟨trail, hruns⟩ := ih _ h
      exact ⟨_, .basic hruns⟩
  | call c next ih =>
      obtain ⟨trail, hcall⟩ := hcalls c s h.1
      obtain ⟨trail', hnext⟩ := ih _ h.2
      exact ⟨_, .call hcall hnext⟩

/-- A call for which the bound suffices runs, with the result that it has with this bound. -/
theorem Call.exists_runs {c : Call α} (h : c.Fits n s) :
    ∃ trail, c.body.Runs s trail ((c.parser n).run s).1 ((c.parser n).run s).2 := by
  induction n generalizing α s with
  | zero => exact absurd h.pos (lt_irrefl 0)
  | succ n ih =>
      rw [c.parser_succ]
      exact (Call.room h).exists_runs fun c s => ih

/-- The run of a code comes to an end with this result. On its way the tokens that are left are those
from a place on that never goes back, and never goes further than behind the last token. -/
def Code.Stops (code : Code α) (s : State) (result : α × State) : Prop :=
  ∃ trail, (∀ trail' a s', code.Runs s trail' a s' ↔ trail' = trail ∧ (a, s') = result) ∧
    ∃ cursors : List Nat, cursors.Pairwise (· ≤ ·) ∧
      List.Forall₂ (fun i (u : State) => i ≤ s.rest.length ∧ u.rest = s.rest.drop i) cursors trail

theorem Code.Runs.stops {code : Code α} {s s' : State} {trail : List State} {a : α}
    (h : code.Runs s trail a s') : code.Stops s (a, s') := by
  obtain ⟨-, hmid, hpairs⟩ := h.ordered stepwise_suffix fun _ _ => List.suffix_rfl
  refine ⟨trail, fun trail' a' s'' => ?_, trail.map fun u => s.rest.length - u.rest.length, ?_, ?_⟩
  · constructor
    · intro h'
      obtain ⟨rfl, rfl, rfl⟩ := h'.unique h
      exact ⟨rfl, rfl⟩
    · rintro ⟨rfl, heq⟩
      cases heq
      exact h
  · refine List.pairwise_map.mpr (hpairs.imp fun {u v} huv => ?_)
    exact Nat.sub_le_sub_left huv.length_le _
  · refine List.forall₂_map_left_iff.mpr (List.forall₂_same.mpr fun u hu => ⟨Nat.sub_le _ _, ?_⟩)
    exact List.suffix_iff_eq_drop.mp (hmid u hu).1

theorem Code.Room.stops {code : Code α} (h : code.Room n s) :
    code.Stops s ((code.within n).run s) := by
  obtain ⟨trail, hruns⟩ := h.exists_runs fun c s => Call.exists_runs
  exact hruns.stops

/-! ## Texts -/

theorem room_finish : Code.finish.Room n s := by
  refine room_basic_bind fun _ s₁ _ => room_current_bind ?_
  split
  · exact room_basic _
  · exact room_pure _

section Depth

variable (hn : depthFor s.rest.length ≤ n)
include hn

/-- A bound that suffices for a text suffices for any call on the way. -/
theorem Call.fits_of_depthFor_le (c : Call α) {s' : State} (h : s'.rest.length ≤ s.rest.length) :
    c.Fits n s' := by
  have hrank := c.rank_mem
  unfold Call.Fits
  unfold depthFor at hn
  omega

theorem room_program : Code.program.Room n s := by
  refine room_call_bind (Call.fits_of_depthFor_le hn _ le_rfl) fun _ s₁ h₁ => ?_
  refine room_call_bind (Call.fits_of_depthFor_le hn _ h₁) fun _ s₂ h₂ => room_current_bind ?_
  split_ifs
  · exact room_basic_bind fun _ _ _ => room_pure _
  · exact room_pure _
  · refine room_call_bind (Call.fits_of_depthFor_le hn _ (h₂.trans h₁)) fun _ _ _ => ?_
    exact room_finish.bind (room_pure _)

theorem room_soleExpr : Code.soleExpr.Room n s := by
  refine room_call_bind (Call.fits_of_depthFor_le hn _ le_rfl) fun _ _ _ => ?_
  exact room_finish.bind (room_pure _)

theorem room_definition {s' : State} (h : s'.rest.length ≤ s.rest.length) :
    Code.definition.Room n s' := by
  refine room_basic_bind fun _ s₁ h₁ => room_basic_bind fun _ s₂ h₂ => room_basic_bind fun _ s₃ h₃ => ?_
  have h₃ : s₃.rest.length ≤ s.rest.length := by omega
  refine room_call_bind (Call.fits_of_depthFor_le hn _ h₃) fun _ s₄ h₄ => room_current_bind ?_
  dsimp only
  split
  · exact room_pure _
  · refine room_basic_bind fun _ s₅ h₅ => ?_
    have h₅ : s₅.rest.length ≤ s.rest.length := by omega
    exact room_call_bind (Call.fits_of_depthFor_le hn _ h₅) fun _ _ _ => room_pure _

theorem room_line : Code.line.Room n s := by
  refine room_call_bind (Call.fits_of_depthFor_le hn _ le_rfl) fun _ s₁ h₁ => room_current_bind ?_
  split
  · exact room_pure _
  · refine (room_definition hn h₁).bind ?_
    generalize (Code.definition.within n).run s₁ = r
    obtain ⟨⟨name, e⟩, s₂⟩ := r
    exact room_finish.bind (room_pure _)
  · refine room_call_bind (Call.fits_of_depthFor_le hn _ h₁) fun _ _ _ => ?_
    exact room_finish.bind (room_pure _)

end Depth

/-- Reading comes to an end for every text. There are no more tokens than bytes, apart from the end of the
input, which is the last token and no other one. Each way to parse the tokens stops, without going back
and without going further than the tokens. -/
theorem parse_stops (source : List UInt8) (ctors : CtorTable) :
    (Lexer.Scans ⟨source, .start⟩ (Lexer.tokenize source) ∧
      ∃ ts z, Lexer.tokenize source = ts ++ [z] ∧ ts.length ≤ source.length ∧
        (∀ t ∈ ts, t.kind ≠ .eof) ∧ z.kind = .eof) ∧
    Code.program.Stops (.start source ctors) (parseProgram source ctors) ∧
    Code.soleExpr.Stops (.start source ctors) (parseExpr source ctors) ∧
    Code.line.Stops (.start source ctors) (parseLine source ctors) ∧
    Call.importDecls.body.Stops (.start source []) (parseImports source) := by
  refine ⟨⟨Lexer.scans_tokenize source, ?_⟩, ?_, ?_, ?_, ?_⟩
  · obtain ⟨ts, z, heq, hts, hz⟩ := Lexer.tokenize_eq_concat source
    have hlength := Lexer.length_tokenize_le source
    rw [heq, List.length_append, List.length_singleton] at hlength
    exact ⟨ts, z, heq, by omega, hts, hz⟩
  · have hstops := (room_program (s := .start source ctors) le_rfl).stops
    rwa [Code.within_program] at hstops
  · have hstops := (room_soleExpr (s := .start source ctors) le_rfl).stops
    rwa [Code.within_soleExpr] at hstops
  · have hstops := (room_line (s := .start source ctors) le_rfl).stops
    rwa [Code.within_line] at hstops
  · obtain ⟨trail, hruns⟩ := Call.exists_runs
      (Call.importDecls.fits_of_depthFor_le (s := .start source []) le_rfl le_rfl)
    exact hruns.stops

end FunLang.Parser
