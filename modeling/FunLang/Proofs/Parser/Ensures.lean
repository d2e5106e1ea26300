import FunLang.Parser.Programs
import FunLang.Proofs.Grammar

set_option autoImplicit false

/-!
# What a parser ensures

A parser goes on after an error, so that its result means something only if it has reported nothing, or
nothing but messages that do not matter. `Ensures T p s Q` says that `Q` holds for the result of `p` from
the state `s` if there are only messages at the end that `T` tolerates, and that in this case there
were only such messages at the start. Complaints about tokens are never tolerated. Since of several
complaints about one token only the first is kept, this rests on a property of states that every parser
keeps up (`State.Consistent`): a token that counts as reported has really been complained about.

The rules follow the way parsers are built: `Ensures.bind` for a sequence of two, one rule for each
of the basic parsers, and a rule for each way to look ahead.
-/

namespace FunLang.Parser

/-! ## Messages -/

/-- A message that is not about the constructors of a program: those begin with that word. -/
def IsComplaint (message : String) : Prop := message.toList.take 2 ≠ ['c', 'o']

/-- Messages that are tolerated. A complaint is none of them. -/
structure Tolerance where
  admits : Diagnostic → Prop
  strict : ∀ pos message, IsComplaint message → ¬ admits (.error pos message)

/-- No message is tolerated. -/
def Tolerance.none : Tolerance := ⟨fun _ => False, fun _ _ _ => id⟩

variable {T : Tolerance}

/-! ## States -/

/-- All messages are tolerated. -/
def State.Within (T : Tolerance) (s : State) : Prop := ∀ d ∈ s.diags, T.admits d

theorem State.within_none_iff {s : State} : s.Within .none ↔ s.diags = [] :=
  List.eq_nil_iff_forall_not_mem.symm

/-- All messages are errors, and there is one that is not tolerated if the current token counts as
reported. -/
structure State.Consistent (T : Tolerance) (s : State) : Prop where
  reported : s.reported = true → ¬ s.Within T
  errors : ∀ d ∈ s.diags, d.severity = .error

/-- Without an error there is no message at all. -/
theorem State.Consistent.diags_eq_nil {s : State} (h : s.Consistent T)
    (herrors : Diagnostic.hasErrors s.diags = false) : s.diags = [] := by
  refine List.eq_nil_iff_forall_not_mem.mpr fun d hd => ?_
  have hd' : d.severity ≠ .error := by simpa using List.any_eq_false.mp herrors d hd
  exact hd' (h.errors d hd)

theorem State.Consistent.advance {s : State} (h : s.Consistent T) : s.advance.Consistent T := by
  unfold State.advance
  split
  · exact h
  · exact ⟨by simp, h.errors⟩

theorem State.within_report_iff {s : State} {d : Diagnostic} :
    (s.report d).Within T ↔ s.Within T ∧ T.admits d := by
  simp [State.Within, State.report, or_imp, forall_and]

theorem State.Consistent.report {s : State} (h : s.Consistent T) {d : Diagnostic}
    (hd : d.severity = .error) : (s.report d).Consistent T := by
  refine ⟨fun hr hw => h.reported hr (State.within_report_iff.mp hw).1, fun d' hd' => ?_⟩
  rcases List.mem_append.mp hd' with hd' | hd'
  · exact h.errors d' hd'
  · rw [List.mem_singleton.mp hd']
    exact hd

theorem State.Consistent.complain {s : State} (h : s.Consistent T) (t : Token)
    {message : String} (hm : IsComplaint message) :
    (s.complain t message).Consistent T ∧ ¬ (s.complain t message).Within T := by
  unfold State.complain
  split
  · rename_i hreported
    exact ⟨h, h.reported hreported⟩
  · have hnot : ¬ (s.report (.error t.pos message)).Within T := fun hw =>
      T.strict t.pos message hm (State.within_report_iff.mp hw).2
    exact ⟨⟨fun _ => hnot, (h.report (d := .error t.pos message) rfl).errors⟩, hnot⟩

/-! ## Tokens between states -/

/-- The tokens that lie between two states. The end of the input is none of them. -/
structure Passes (s : State) (ts : List Token) (s' : State) : Prop where
  rest : s.rest = ts ++ s'.rest
  inside : ∀ t ∈ ts, t.kind ≠ .eof

/-- The tokens that lie between two states with the same table of constructors and the same messages. -/
structure Reads (s : State) (ts : List Token) (s' : State) : Prop extends Passes s ts s' where
  ctors : s'.ctors = s.ctors
  diags : s'.diags = s.diags

theorem Passes.refl (s : State) : Passes s [] s := ⟨rfl, by simp⟩

theorem Reads.refl (s : State) : Reads s [] s := ⟨.refl s, rfl, rfl⟩

theorem Passes.trans {s s₁ s₂ : State} {ts us : List Token} (h : Passes s ts s₁)
    (h' : Passes s₁ us s₂) : Passes s (ts ++ us) s₂ := by
  refine ⟨by rw [h.rest, h'.rest, List.append_assoc], fun t ht => ?_⟩
  rcases List.mem_append.mp ht with ht | ht
  · exact h.inside t ht
  · exact h'.inside t ht

theorem Reads.trans {s s₁ s₂ : State} {ts us : List Token} (h : Reads s ts s₁) (h' : Reads s₁ us s₂) :
    Reads s (ts ++ us) s₂ :=
  ⟨h.toPasses.trans h'.toPasses, h'.ctors.trans h.ctors, h'.diags.trans h.diags⟩

theorem Passes.length {s s' : State} {ts : List Token} (h : Passes s ts s') :
    s.rest.length = ts.length + s'.rest.length := by
  rw [h.rest, List.length_append]

theorem Passes.current_eq {s s' : State} {t : Token} {ts : List Token} (h : Passes s (t :: ts) s') :
    s.current = t := by
  rw [State.current, h.rest]
  rfl

/-- Between `s` and `s'` lies a phrase with the property `P`, provided that the bound `n` on the depth
of the calls suffices for the tokens that are left at `s`: eight for each of them and `c` more. -/
def Phrase (n c : Nat) (s s' : State) (P : CtorTable → List Token → Prop) : Prop :=
  8 * s.rest.length + c ≤ n → ∃ ts, Reads s ts s' ∧ P s.ctors ts

section Phrases

variable {n c c' : Nat} {s s₁ s' : State} {P : CtorTable → List Token → Prop}

/-- A phrase that is read first, with a bound that is smaller by one. -/
theorem Phrase.first (h : Phrase n c s s' P) (hn : 8 * s.rest.length + c' ≤ n + 1) (hc : c + 1 ≤ c') :
    ∃ ts, Reads s ts s' ∧ P s.ctors ts :=
  h (by omega)

/-- A phrase that is read after some tokens, with a bound that is smaller by one. -/
theorem Phrase.after {ts : List Token} (h : Phrase n c s₁ s' P) (hread : Reads s ts s₁)
    (hts : 0 < ts.length) (hn : 8 * s.rest.length + c' ≤ n + 1) (hc : c ≤ c' + 7) :
    ∃ us, Reads s (ts ++ us) s' ∧ P s.ctors us := by
  have hlen := hread.length
  obtain ⟨us, hus, hP⟩ := h (by omega)
  exact ⟨us, hread.trans hus, hread.ctors ▸ hP⟩

end Phrases

/-- A token that is not the end of the input is there to be passed over. -/
theorem State.reads_advance {s : State} (h : s.current.kind ≠ .eof) :
    Reads s [s.current] s.advance := by
  unfold State.current State.advance at *
  cases hs : s.rest with
  | nil => simp [hs, Token.endAt] at h
  | cons t ts => exact ⟨⟨by simp [hs], by simpa [hs] using h⟩, rfl, rfl⟩

/-! ## Results of parsers -/

variable {α β : Type}

/-- If all messages after `p` are tolerated then so were those before, and `Q` holds for what `p`
gives. -/
def Ensures (T : Tolerance) (p : Parser α) (s : State) (Q : α → State → Prop) : Prop :=
  s.Consistent T → (p.run s).2.Consistent T ∧
    ((p.run s).2.Within T → s.Within T ∧ Q (p.run s).1 (p.run s).2)

theorem Ensures.mono {p : Parser α} {s : State} {Q R : α → State → Prop} (h : Ensures T p s Q)
    (hQR : ∀ a s', Q a s' → R a s') : Ensures T p s R := by
  intro hs
  obtain ⟨hs', hclean⟩ := h hs
  exact ⟨hs', fun hd => ⟨(hclean hd).1, hQR _ _ (hclean hd).2⟩⟩

theorem ensures_pure {a : α} {s : State} {Q : α → State → Prop} (h : Q a s) :
    Ensures T (pure a) s Q :=
  fun hs => ⟨hs, fun hd => ⟨hd, h⟩⟩

/-- The second parser may rely on what the first one ensures, but has to be looked at from every
state: the first one may have reported something. -/
theorem Ensures.bind {p : Parser α} {f : α → Parser β} {s : State} {Q : α → State → Prop}
    {R : β → State → Prop} (hp : Ensures T p s Q)
    (hf : ∀ a s', Ensures T (f a) s' fun b s'' => Q a s' → R b s'') : Ensures T (p >>= f) s R := by
  intro hs
  obtain ⟨hs', hclean⟩ := hp hs
  obtain ⟨hs'', hclean'⟩ := hf _ _ hs'
  refine ⟨hs'', fun hd => ?_⟩
  obtain ⟨hd', hR⟩ := hclean' hd
  obtain ⟨hd, hQ⟩ := hclean hd'
  exact ⟨hd, hR hQ⟩

/-! ## Looking ahead -/

theorem ensures_current_bind {f : Token → Parser β} {s : State} {R : β → State → Prop}
    (h : Ensures T (f s.current) s R) : Ensures T (current >>= f) s R := h

theorem ensures_peek_bind {f : Token → Parser β} {s : State} {R : β → State → Prop}
    (h : Ensures T (f s.peek) s R) : Ensures T (peek >>= f) s R := h

theorem ensures_check_bind {k : TokenKind} {f : Bool → Parser β} {s : State} {R : β → State → Prop}
    (h : Ensures T (f (s.current.kind == k)) s R) : Ensures T (check k >>= f) s R := h

theorem ensures_ctor?_bind {name : String} {f : Option Constructor → Parser β} {s : State}
    {R : β → State → Prop} (h : Ensures T (f (s.ctors.find? name)) s R) :
    Ensures T (ctor? name >>= f) s R := h

/-! ## Passing over tokens -/

theorem ensures_advance (s : State) : Ensures T advance s fun t s' => t = s.current ∧ s' = s.advance :=
  fun hs => ⟨hs.advance, fun hd => ⟨by
    change s.advance.Within T at hd
    unfold State.advance at hd
    split at hd <;> exact hd, rfl, rfl⟩⟩

/-- The current token is passed over, whatever it is but the end of the input. -/
theorem ensures_advance_of_ne {s : State} (h : s.current.kind ≠ .eof) :
    Ensures T advance s fun t s' => t = s.current ∧ Reads s [t] s' :=
  (ensures_advance s).mono fun _ _ ⟨ht, hs'⟩ => ⟨ht, by rw [ht, hs']; exact State.reads_advance h⟩

theorem ensures_report {d : Diagnostic} (hd : d.severity = .error) (s : State) :
    Ensures T (report d) s fun _ s' => T.admits d ∧ s' = s.report d :=
  fun hs => ⟨hs.report hd, fun h =>
    ⟨(State.within_report_iff.mp h).1, (State.within_report_iff.mp h).2, rfl⟩⟩

/-- Nothing good comes of a complaint. -/
theorem ensures_complain (t : Token) {message : String} (hm : IsComplaint message) (s : State) :
    Ensures T (complain t message) s fun _ _ => False :=
  fun hs => ⟨(hs.complain t hm).1, fun hd => absurd hd (hs.complain t hm).2⟩

theorem ensures_expect {k : TokenKind} (hk : k ≠ .eof) (s : State) :
    Ensures T (expect k) s fun t s' => t.kind = k ∧ Reads s [t] s' := by
  refine ensures_current_bind ?_
  split
  · rename_i h
    exact (ensures_advance_of_ne (h ▸ hk)).mono fun t s' ⟨ht, hread⟩ => ⟨ht ▸ h, hread⟩
  · refine (ensures_complain _ ?_ s).bind fun _ _ => ensures_pure False.elim
    simp [IsComplaint, toString]

theorem ensures_accept {k : TokenKind} (hk : k ≠ .eof) (s : State) :
    Ensures T (accept k) s fun b s' =>
      (b = true ∧ ∃ t, t.kind = k ∧ Reads s [t] s') ∨ (b = false ∧ s.current.kind ≠ k ∧ s' = s) := by
  refine ensures_check_bind ?_
  split
  · rename_i h
    have h : s.current.kind = k := by simpa using h
    refine (ensures_advance_of_ne (h ▸ hk)).bind fun t s' => ensures_pure ?_
    rintro ⟨ht, hread⟩
    exact Or.inl ⟨rfl, t, ht ▸ h, hread⟩
  · rename_i h
    exact ensures_pure (Or.inr ⟨rfl, by simpa using h, rfl⟩)

end FunLang.Parser
