import FunLang.Parser.Programs
import FunLang.Proofs.Token.Sequence

set_option autoImplicit false

/-!
# The places of messages

A parser complains about the current token, or about one that it has read. So its messages point at tokens
of the text as long as it does not pass over the end of the input. Almost no parser does that. The one
exception is where a type is missing at the end: `atomicType` passes over every token that starts none,
the end of the input included. The closing parenthesis that is missing next is then reported at no known
place, and as there is no token left to pass over, this is the only such message (`State.Overrun`).

All other parsers keep the state in order (`Aims`). Types leave it in order or just behind the end of the
input (`State.Cut`), where a closing parenthesis is always expected next.
-/

namespace FunLang.Parser

variable {α β : Type}

/-! ## States -/

/-- The message is at the place of one of the tokens. -/
def PointsInto (ts : List Token) (d : Diagnostic) : Prop := ∃ t ∈ ts, d.pos = t.pos

/-- The message that the input ends at `z` where a type is expected. -/
def missingType (z : Token) : Diagnostic := .error z.pos "expected a type, got end of input"

/-- The message that the input ends before a closing parenthesis, at no known place. -/
def missingParen : Diagnostic := .error .unknown "expected ')', got end of input"

/-- All messages point at tokens but for one that follows the message about a missing type. -/
def PointsAstray (ts : List Token) (ds : List Diagnostic) : Prop :=
  ∃ z ∈ ts, z.kind = .eof ∧ ∃ ds₁ ds₂, (∀ d ∈ ds₁, PointsInto ts d) ∧ (∀ d ∈ ds₂, PointsInto ts d) ∧
    ds = ds₁ ++ [missingType z, missingParen] ++ ds₂

section Tokens

variable (ts : List Token) (z : Token)

/-- Some of the tokens `ts` are left and after them the end of the input, `z`, and all messages point at
tokens. -/
structure State.OnTokens (s : State) : Prop where
  rest : ∃ ws, ws <:+ ts ∧ s.rest = ws ++ [z]
  stop : z.kind = .eof
  diags : ∀ d ∈ s.diags, PointsInto (ts ++ [z]) d

/-- The end of the input has been passed over, and what was missing then has been reported. -/
structure State.Overrun (s : State) : Prop where
  rest : s.rest = []
  reported : s.reported = true
  diags : PointsAstray (ts ++ [z]) s.diags

/-- The state is in order. -/
def State.Aimed (s : State) : Prop := s.OnTokens ts z ∨ s.Overrun ts z

/-- The end of the input has been passed over in place of a type. -/
structure State.Cut (s : State) : Prop where
  rest : s.rest = []
  reported : s.reported = false
  diags : ∃ u ∈ ts ++ [z], u.kind = .eof ∧
    ∃ ds, (∀ d ∈ ds, PointsInto (ts ++ [z]) d) ∧ s.diags = ds ++ [missingType u]

variable {ts z} {s : State} {t : Token}

theorem State.current_advance (s : State) : s.advance.current = s.peek := by
  unfold State.advance State.current State.peek
  cases hs : s.rest with
  | nil => simp [hs]
  | cons t rest => rfl

theorem State.OnTokens.current_mem (h : s.OnTokens ts z) : s.current ∈ ts ++ [z] := by
  obtain ⟨ws, hws, hrest⟩ := h.rest
  rw [State.current, hrest]
  cases ws with
  | nil => simp
  | cons w ws => exact List.mem_append_left _ (hws.subset (by simp))

theorem State.OnTokens.report (h : s.OnTokens ts z) {d : Diagnostic} (hd : PointsInto (ts ++ [z]) d) :
    (s.report d).OnTokens ts z := by
  refine ⟨h.rest, h.stop, fun d' hd' => ?_⟩
  rcases List.mem_append.mp hd' with hd' | hd'
  · exact h.diags d' hd'
  · rw [List.mem_singleton.mp hd']
    exact hd

theorem State.OnTokens.complain (h : s.OnTokens ts z) (ht : t ∈ ts ++ [z]) (message : String) :
    (s.complain t message).OnTokens ts z := by
  unfold State.complain
  split
  · exact h
  · have hreport := h.report (d := .error t.pos message) ⟨t, ht, rfl⟩
    exact ⟨hreport.rest, hreport.stop, hreport.diags⟩

/-- Passing over any token but the last. -/
theorem State.OnTokens.advance_of_eq (h : s.OnTokens ts z) {w : Token} {ws : List Token}
    (hws : w :: ws <:+ ts) (hrest : s.rest = w :: ws ++ [z]) :
    s.advance.OnTokens ts z ∧ s.advance.reported = false := by
  rw [State.advance, hrest]
  exact ⟨⟨⟨ws, (List.suffix_cons w ws).trans hws, rfl⟩, h.stop, h.diags⟩, rfl⟩

theorem State.OnTokens.advance (h : s.OnTokens ts z)
    (hs : s.current.kind ≠ .eof) : s.advance.OnTokens ts z ∧ s.advance.reported = false := by
  obtain ⟨ws, hws, hrest⟩ := h.rest
  cases ws with
  | nil =>
      rw [State.current, hrest] at hs
      exact absurd h.stop hs
  | cons w ws => exact h.advance_of_eq hws hrest

theorem State.OnTokens.expect (h : s.OnTokens ts z) {k : TokenKind} (hk : k ≠ .eof) :
    ((expect k).run s).2.OnTokens ts z := by
  show ((if s.current.kind = k then Parser.advance else _ : Parser Token).run s).2.OnTokens ts z
  split
  · rename_i hs
    exact (h.advance (hs ▸ hk)).1
  · exact h.complain h.current_mem _

theorem State.Overrun.complain (h : s.Overrun ts z) (t : Token) (message : String) :
    s.complain t message = s := by
  simp [State.complain, h.reported]

theorem State.Overrun.current (h : s.Overrun ts z) : s.current.kind = .eof := by
  rw [State.current, h.rest]
  rfl

theorem State.Overrun.report (h : s.Overrun ts z) {d : Diagnostic} (hd : PointsInto (ts ++ [z]) d) :
    (s.report d).Overrun ts z := by
  obtain ⟨u, hu, hkind, ds₁, ds₂, hds₁, hds₂, hdiags⟩ := h.diags
  refine ⟨h.rest, h.reported, u, hu, hkind, ds₁, ds₂ ++ [d], hds₁, fun d' hd' => ?_, ?_⟩
  · rcases List.mem_append.mp hd' with hd' | hd'
    · exact hds₂ d' hd'
    · rw [List.mem_singleton.mp hd']
      exact hd
  · simp [State.report, hdiags]

theorem State.Aimed.complain_current (h : s.Aimed ts z) (message : String) :
    (s.complain s.current message).Aimed ts z := by
  rcases h with h | h
  · exact Or.inl (h.complain h.current_mem message)
  · rw [h.complain]
    exact Or.inr h

theorem State.Aimed.complain (h : s.Aimed ts z) (ht : t ∈ ts ++ [z]) (message : String) :
    (s.complain t message).Aimed ts z := by
  rcases h with h | h
  · exact Or.inl (h.complain ht message)
  · rw [h.complain]
    exact Or.inr h

/-- A token that is not the end of the input is among the tokens and can be passed over. -/
theorem State.Aimed.advance (h : s.Aimed ts z) (hs : s.current.kind ≠ .eof) :
    s.current ∈ ts ++ [z] ∧ s.advance.OnTokens ts z ∧ s.advance.reported = false := by
  rcases h with h | h
  · exact ⟨h.current_mem, h.advance hs⟩
  · exact absurd h.current hs

/-! ## Basic parsers -/

theorem bind_run (p : Parser α) (f : α → Parser β) (s : State) :
    (p >>= f).run s = (f (p.run s).1).run (p.run s).2 := rfl

theorem current_bind_run (f : Token → Parser β) (s : State) :
    (current >>= f).run s = (f s.current).run s := rfl

theorem check_bind_run (k : TokenKind) (f : Bool → Parser β) (s : State) :
    (check k >>= f).run s = (f (s.current.kind == k)).run s := rfl

section Rules

variable (ts z)

/-- The parser keeps the state in order. -/
def Aims (p : Parser α) : Prop := ∀ s, s.Aimed ts z → (p.run s).2.Aimed ts z

/-- The parser keeps a state in order that has `t` as its current token. -/
def AimsAt (t : Token) (p : Parser α) : Prop :=
  ∀ s, s.Aimed ts z → s.current = t → (p.run s).2.Aimed ts z

/-- The parser keeps a state in order that is just behind a token. -/
def AimsBehind (p : Parser α) : Prop :=
  ∀ s, s.OnTokens ts z → s.reported = false → (p.run s).2.Aimed ts z

variable {ts z}

theorem Aims.at {p : Parser α} (h : Aims ts z p) : AimsAt ts z t p := fun s hs _ => h s hs

theorem Aims.behind {p : Parser α} (h : Aims ts z p) : AimsBehind ts z p := fun s hs _ => h s (Or.inl hs)

theorem aims_pure (a : α) : Aims ts z (pure a : Parser α) := fun _ => id

theorem Aims.bind {p : Parser α} {f : α → Parser β} (hp : Aims ts z p) (hf : ∀ a, Aims ts z (f a)) :
    Aims ts z (p >>= f) := fun s hs => hf _ _ (hp s hs)

theorem AimsAt.bind {p : Parser α} {f : α → Parser β} (hp : AimsAt ts z t p)
    (hf : ∀ a, Aims ts z (f a)) : AimsAt ts z t (p >>= f) := fun s hs ht => hf _ _ (hp s hs ht)

theorem aimsAt_current_bind {f : Token → Parser β} (h : AimsAt ts z t (f t)) :
    AimsAt ts z t (current >>= f) := by
  rintro s hs rfl
  exact h s hs rfl

theorem aims_current_bind {f : Token → Parser β} (h : ∀ t, AimsAt ts z t (f t)) :
    Aims ts z (current >>= f) := fun s hs => h s.current s hs rfl

theorem aims_check_bind {k : TokenKind} {f : Bool → Parser β}
    (hyes : ∀ t, t.kind = k → AimsAt ts z t (f true)) (hno : ∀ t, t.kind ≠ k → AimsAt ts z t (f false)) :
    Aims ts z (check k >>= f) := by
  intro s hs
  show ((f (s.current.kind == k)).run s).2.Aimed ts z
  cases hk : s.current.kind == k with
  | true => exact hyes s.current (beq_iff_eq.mp hk) s hs rfl
  | false => exact hno s.current (beq_eq_false_iff_ne.mp hk) s hs rfl

theorem aims_ctor?_bind {name : String} {f : Option Constructor → Parser β} (h : ∀ c, Aims ts z (f c)) :
    Aims ts z (ctor? name >>= f) := fun s hs => h _ s hs

theorem aimsAt_ctor?_bind {name : String} {f : Option Constructor → Parser β}
    (h : ∀ c, AimsAt ts z t (f c)) : AimsAt ts z t (ctor? name >>= f) := fun s hs ht => h _ s hs ht

theorem aimsAt_complain (t : Token) (message : String) : AimsAt ts z t (complain t message) := by
  rintro s hs rfl
  exact hs.complain_current message

theorem aims_complain (ht : t ∈ ts ++ [z]) (message : String) : Aims ts z (complain t message) :=
  fun _ hs => hs.complain ht message

theorem aims_report {d : Diagnostic} (hd : PointsInto (ts ++ [z]) d) : Aims ts z (report d) :=
  fun _ hs => hs.imp (fun h => h.report hd) fun h => h.report hd

theorem aims_intLiteral (ht : t ∈ ts ++ [z]) (negative : Bool) : Aims ts z (intLiteral t negative) := by
  unfold intLiteral
  generalize (if negative then - (digitsValue t.literal : Int) else digitsValue t.literal) = i
  show Aims ts z (if minInt ≤ i ∧ i ≤ maxInt then pure (Int64.ofInt i) else _)
  split
  · exact aims_pure _
  · refine (aims_report ?_).bind fun _ => aims_pure 0
    exact ⟨t, ht, rfl⟩

theorem aimsAt_advance_bind_behind {f : Token → Parser β} (ht : t.kind ≠ .eof)
    (h : t ∈ ts ++ [z] → AimsBehind ts z (f t)) : AimsAt ts z t (advance >>= f) := by
  rintro s hs rfl
  obtain ⟨hmem, hadvance, hreported⟩ := hs.advance ht
  exact h hmem s.advance hadvance hreported

theorem aimsAt_advance_bind {f : Token → Parser β} (ht : t.kind ≠ .eof)
    (h : t ∈ ts ++ [z] → Aims ts z (f t)) : AimsAt ts z t (advance >>= f) :=
  aimsAt_advance_bind_behind ht fun hmem => (h hmem).behind

theorem aims_expect_bind {k : TokenKind} (hk : k ≠ .eof) {f : Token → Parser β}
    (h : ∀ t, (t.kind = k → t ∈ ts ++ [z]) → Aims ts z (f t)) : Aims ts z (expect k >>= f) := by
  unfold expect
  rw [bind_assoc]
  refine aims_current_bind fun t => ?_
  split
  · rename_i ht
    refine aimsAt_advance_bind (ht ▸ hk) fun hmem => h t fun _ => hmem
  · rename_i ht
    rw [bind_assoc]
    exact (aimsAt_complain t _).bind fun _ => h t fun hk => absurd hk ht

theorem aims_expect {k : TokenKind} (hk : k ≠ .eof) : Aims ts z (expect k) := by
  have h : Aims ts z (expect k >>= pure) := aims_expect_bind hk fun t _ => aims_pure t
  rwa [bind_pure] at h

theorem aims_accept {k : TokenKind} (hk : k ≠ .eof) : Aims ts z (accept k) := by
  refine aims_check_bind (fun t ht => ?_) fun _ _ => (aims_pure false).at
  exact aimsAt_advance_bind (ht ▸ hk) fun _ => aims_pure true

theorem aims_binderName : Aims ts z binderName := by
  refine aims_expect_bind (by simp) fun t ht => ?_
  split
  · exact aims_pure errorName
  · rename_i hident
    refine aims_ctor?_bind fun c => ?_
    split
    · exact (aims_complain (ht (not_not.mp hident)) _).bind fun _ => aims_pure t.text
    · exact aims_pure t.text

/-- The current token is reported and passed over unless it is the end of the input. -/
theorem aimsAt_passOver (message : String) (a : α) : AimsAt ts z t (do
    complain t message
    if !(← check .eof) then
      let _ ← advance
    return a) := by
  refine (aimsAt_complain t message).bind fun _ => ?_
  refine aims_check_bind (fun u _ => (aims_pure a).at) fun u hu => ?_
  exact aimsAt_advance_bind hu fun _ => aims_pure a

theorem aimsAt_badPattern (t : Token) : AimsAt ts z t (badPattern t) := aimsAt_passOver _ _

theorem aimsAt_badAtom (t : Token) : AimsAt ts z t (badAtom t) := aimsAt_passOver _ _

/-- A number behind the current token. -/
theorem aimsAt_negated (f : Int64 → α) {p : Parser α} (hp : AimsAt ts z t p) (ht : t.kind ≠ .eof) :
    AimsAt ts z t (do
      if (← peek).kind = .intLit then
        let _ ← advance
        let digits ← advance
        return f (← intLiteral digits true)
      else p) := by
  rintro s hs rfl
  show ((if s.peek.kind = .intLit then _ else p : Parser α).run s).2.Aimed ts z
  split
  · rename_i hpeek
    obtain ⟨-, hadvance, -⟩ := hs.advance ht
    have hnumber : AimsAt ts z s.peek (do
        let digits ← advance
        return f (← intLiteral digits true)) :=
      aimsAt_advance_bind (by simp [hpeek]) fun hmem =>
        (aims_intLiteral hmem true).bind fun n => aims_pure (f n)
    exact hnumber s.advance (Or.inl hadvance) s.current_advance
  · exact hp s hs rfl

/-! ## Types -/

/-- The closing parenthesis that is missing next is reported at no known place. -/
theorem State.Cut.expect_rparen (h : s.Cut ts z) : ((expect .rparen).run s).2.Overrun ts z := by
  obtain ⟨u, hu, hkind, ds, hds, hdiags⟩ := h.diags
  have hcurrent : s.current = .endAt .unknown := by
    rw [State.current, h.rest]
    rfl
  have hrun : ((expect .rparen).run s).2 = { s.report missingParen with reported := true } := by
    show ((if s.current.kind = .rparen then _ else _ : Parser Token).run s).2 = _
    rw [hcurrent]
    show s.complain (.endAt .unknown) "expected ')', got end of input" = _
    rw [State.complain, h.reported]
    rfl
  rw [hrun]
  exact ⟨h.rest, rfl, u, hu, hkind, ds, [], hds, by simp, by simp [State.report, hdiags]⟩

/-- The parser keeps a state in order that is just behind a token, or passes over the end of the input in
place of a type. -/
def AimsOrCuts (ts : List Token) (z : Token) (p : Parser α) : Prop :=
  ∀ s, s.OnTokens ts z → s.reported = false → (p.run s).2.Aimed ts z ∨ (p.run s).2.Cut ts z

theorem AimsOrCuts.bind_rparen {p : Parser α} (hp : AimsOrCuts ts z p) (f : α → β) :
    AimsBehind ts z (do
      let a ← p
      let _ ← expect .rparen
      return f a) := by
  intro s hs hreported
  rcases hp s hs hreported with h | h
  · exact aims_expect (by simp) _ h
  · exact Or.inr h.expect_rparen

/-- At a token that starts one, an atomic type keeps the state in order. -/
theorem aimsAt_atomicType_succ {n : Nat} (htype : AimsOrCuts ts z (type n))
    (ht : startsAtomicType t.kind = true) : AimsAt ts z t (atomicType (n + 1)) := by
  have hne : t.kind ≠ .eof := by
    intro heof
    simp [heof, startsAtomicType] at ht
  have hname : AimsAt ts z t (do let _ ← advance; return Ty.name t.pos t.text) :=
    aimsAt_advance_bind hne fun _ => aims_pure _
  rw [atomicType]
  refine aimsAt_current_bind ?_
  split
  · exact hname
  · exact hname
  · exact hname
  · exact aimsAt_advance_bind_behind hne fun _ => htype.bind_rparen id
  · simp_all [startsAtomicType]

/-- Any other token is reported and passed over. -/
theorem run_atomicType_succ {n : Nat} (hs : startsAtomicType s.current.kind = false) :
    ((atomicType (n + 1)).run s).2 =
      (s.complain s.current s!"expected a type, got {s.current.describe}").advance := by
  rw [atomicType, current_bind_run]
  split
  · simp_all [startsAtomicType]
  · simp_all [startsAtomicType]
  · simp_all [startsAtomicType]
  · simp_all [startsAtomicType]
  · rfl

/-- If this token is the end of the input then the input is cut off. -/
theorem State.OnTokens.aimed_or_cut (h : s.OnTokens ts z) (hreported : s.reported = false) :
    let s' := (s.complain s.current s!"expected a type, got {s.current.describe}").advance
    s'.Aimed ts z ∨ s'.Cut ts z := by
  obtain ⟨ws, hws, hrest⟩ := h.rest
  have hcomplain := h.complain h.current_mem s!"expected a type, got {s.current.describe}"
  cases ws with
  | nil =>
      have hcurrent : s.current = z := by
        rw [State.current, hrest]
        rfl
      have hmessage : s!"expected a type, got {z.describe}" = "expected a type, got end of input" := by
        rw [Token.describe]
        simp only [h.stop]
        rfl
      right
      rw [hcurrent, hmessage, State.complain, hreported, State.advance]
      simp only [State.report, hrest]
      exact ⟨rfl, rfl, z, by simp, h.stop, s.diags, h.diags, rfl⟩
  | cons w ws =>
      refine Or.inl (Or.inl (hcomplain.advance_of_eq hws ?_).1)
      rw [← hrest, State.complain, hreported]
      rfl

theorem aimsOrCuts_atomicType_succ {n : Nat} (htype : AimsOrCuts ts z (type n)) :
    AimsOrCuts ts z (atomicType (n + 1)) := by
  intro s hs hreported
  cases hstarts : startsAtomicType s.current.kind with
  | true => exact Or.inl (aimsAt_atomicType_succ htype hstarts s (Or.inl hs) rfl)
  | false =>
      rw [run_atomicType_succ hstarts]
      exact hs.aimed_or_cut hreported

theorem aimsOrCuts_type_succ {n : Nat} (htype : AimsOrCuts ts z (type n))
    (hatomic : AimsOrCuts ts z (atomicType n)) : AimsOrCuts ts z (type (n + 1)) := by
  intro s hs hreported
  rw [type, bind_run]
  rcases hatomic s hs hreported with h | h
  · generalize (atomicType n).run s = r at h ⊢
    rw [check_bind_run]
    split
    · rename_i harrow
      obtain ⟨-, hadvance, hreported'⟩ := h.advance (by simp [beq_iff_eq.mp harrow])
      exact htype _ hadvance hreported'
    · exact Or.inl h
  · right
    generalize (atomicType n).run s = r at h ⊢
    have hcheck : (r.2.current.kind == .arrow) = false := by
      rw [State.current, h.rest]
      rfl
    rw [check_bind_run, hcheck]
    exact h

theorem aimsOrCuts_type (n : Nat) : AimsOrCuts ts z (type n) ∧ AimsOrCuts ts z (atomicType n) := by
  induction n with
  | zero => exact ⟨fun s hs _ => Or.inl (Or.inl hs), fun s hs _ => Or.inl (Or.inl hs)⟩
  | succ n ih => exact ⟨aimsOrCuts_type_succ ih.1 ih.2, aimsOrCuts_atomicType_succ ih.1⟩

theorem aimsAt_atomicType (ht : startsAtomicType t.kind = true) (n : Nat) :
    AimsAt ts z t (atomicType n) := by
  cases n with
  | zero => exact (aims_pure _).at
  | succ n => exact aimsAt_atomicType_succ (aimsOrCuts_type n).1 ht

theorem aims_atomicTypes (n : Nat) : Aims ts z (atomicTypes n) := by
  induction n with
  | zero => exact aims_pure _
  | succ n ih =>
      rw [atomicTypes]
      refine aims_current_bind fun t => ?_
      split
      · rename_i ht
        exact (aimsAt_atomicType ht n).bind fun ty => ih.bind fun tys => aims_pure _
      · exact (aims_pure _).at

/-! ## Patterns -/

mutual

theorem aims_pattern : ∀ n, Aims ts z (pattern n)
  | 0 => aims_pure _
  | n + 1 => by
      rw [pattern]
      refine aims_current_bind fun t => ?_
      split
      · rename_i ht
        refine aimsAt_ctor?_bind fun c => ?_
        split
        · refine aimsAt_advance_bind (by simp [ht]) fun _ => ?_
          exact (aims_atomicPatterns n).bind fun ps => aims_pure _
        · exact (aims_atomicPattern n).at
      · exact (aims_atomicPattern n).at

theorem aims_atomicPattern : ∀ n, Aims ts z (atomicPattern n)
  | 0 => aims_pure _
  | n + 1 => by
      rw [atomicPattern]
      refine aims_current_bind fun t => ?_
      split
      · rename_i ht
        refine aimsAt_advance_bind (by simp [ht]) fun hmem => ?_
        exact (aims_intLiteral hmem false).bind fun i => aims_pure _
      · rename_i ht
        exact aimsAt_negated (Pattern.int t.pos) (aimsAt_badPattern t) (by simp [ht])
      · rename_i ht
        exact aimsAt_advance_bind (by simp [ht]) fun _ => aims_pure _
      · rename_i ht
        exact aimsAt_advance_bind (by simp [ht]) fun _ => aims_pure _
      · rename_i ht
        refine aimsAt_advance_bind (by simp [ht]) fun _ => aims_ctor?_bind fun c => ?_
        split
        · exact aims_pure _
        · exact aims_pure _
      · rename_i ht
        refine aimsAt_advance_bind (by simp [ht]) fun _ => (aims_pattern n).bind fun p => ?_
        exact (aims_expect (by simp)).bind fun _ => aims_pure p
      · exact aimsAt_badPattern t

theorem aims_atomicPatterns : ∀ n, Aims ts z (atomicPatterns n)
  | 0 => aims_pure _
  | n + 1 => by
      rw [atomicPatterns]
      refine aims_current_bind fun t => ?_
      split
      · refine ((aims_atomicPattern n).bind fun p => ?_).at
        exact (aims_atomicPatterns n).bind fun ps => aims_pure _
      · exact (aims_pure _).at

end

/-! ## Expressions -/

mutual

theorem aims_expr : ∀ n, Aims ts z (expr n)
  | 0 => aims_pure _
  | n + 1 => by
      rw [expr]
      refine aims_current_bind fun t => ?_
      have hfunction (ht : t.kind ≠ .eof) : AimsAt ts z t (do
          let t ← advance
          let param ← binderName
          let _ ← expect .arrow
          let body ← expr n
          return Expr.fn t.pos param body) := by
        refine aimsAt_advance_bind ht fun _ => (aims_binderName).bind fun _ => ?_
        refine (aims_expect (by simp)).bind fun _ => (aims_expr n).bind fun _ => ?_
        exact aims_pure _
      split
      · refine ((aims_expect (by simp)).bind fun _ => (aims_binderName).bind fun _ => ?_).at
        refine (aims_expect (by simp)).bind fun _ => (aims_expr n).bind fun _ => ?_
        refine (aims_expect (by simp)).bind fun _ => (aims_expr n).bind fun _ => ?_
        exact aims_pure _
      · rename_i ht
        exact hfunction (by simp [ht])
      · rename_i ht
        exact hfunction (by simp [ht])
      · refine ((aims_expect (by simp)).bind fun _ => (aims_expr n).bind fun _ => ?_).at
        refine (aims_expect (by simp)).bind fun _ => (aims_expr n).bind fun _ => ?_
        refine (aims_expect (by simp)).bind fun _ => (aims_expr n).bind fun _ => ?_
        exact aims_pure _
      · refine ((aims_expect (by simp)).bind fun _ => (aims_expr n).bind fun _ => ?_).at
        refine (aims_expect (by simp)).bind fun _ => (aims_accept (by simp)).bind fun _ => ?_
        exact (aims_alternatives n).bind fun _ => aims_pure _
      · exact (aims_binary n 1).at

theorem aims_alternatives : ∀ n, Aims ts z (alternatives n)
  | 0 => aims_pure _
  | n + 1 => by
      rw [alternatives]
      refine aims_current_bind fun t => ((aims_pattern n).bind fun p => ?_).at
      refine (aims_expect (by simp)).bind fun _ => (aims_expr n).bind fun body => ?_
      refine (aims_accept (by simp)).bind fun b => ?_
      split
      · exact (aims_alternatives n).bind fun _ => aims_pure _
      · exact aims_pure _

theorem aims_binary : ∀ n min, Aims ts z (binary n min)
  | 0, _ => aims_pure _
  | n + 1, min => by
      rw [binary]
      exact (aims_application n).bind fun left => aims_operators n min left

theorem aims_operators : ∀ n min left, Aims ts z (operators n min left)
  | 0, _, _ => aims_pure _
  | n + 1, min, left => by
      rw [operators]
      refine aims_current_bind fun t => ?_
      dsimp only
      split
      · exact (aims_pure left).at
      · rename_i hlevel
        have ht : t.kind ≠ .eof := by
          intro heof
          simp [heof, level] at hlevel
        refine aimsAt_advance_bind ht fun _ => (aims_binary n _).bind fun right => ?_
        exact aims_operators n min _

theorem aims_application : ∀ n, Aims ts z (application n)
  | 0 => aims_pure _
  | n + 1 => by
      rw [application]
      refine (aims_atom n).bind fun func => aims_current_bind fun t => ?_
      split
      · exact ((aims_atoms n).bind fun as => aims_pure _).at
      · exact (aims_pure func).at

theorem aims_atoms : ∀ n, Aims ts z (atoms n)
  | 0 => aims_pure _
  | n + 1 => by
      rw [atoms]
      refine aims_current_bind fun t => ?_
      split
      · refine ((aims_atom n).bind fun a => ?_).at
        exact (aims_atoms n).bind fun as => aims_pure _
      · exact (aims_pure _).at

theorem aims_atom : ∀ n, Aims ts z (atom n)
  | 0 => aims_pure _
  | n + 1 => by
      rw [atom]
      refine aims_current_bind fun t => ?_
      split
      · rename_i ht
        refine aimsAt_advance_bind (by simp [ht]) fun hmem => ?_
        exact (aims_intLiteral hmem false).bind fun i => aims_pure _
      · rename_i ht
        exact aimsAt_negated (Expr.int t.pos) (aimsAt_badAtom t) (by simp [ht])
      · rename_i ht
        exact aimsAt_advance_bind (by simp [ht]) fun _ => aims_pure _
      · rename_i ht
        exact aimsAt_advance_bind (by simp [ht]) fun _ => aims_pure _
      · rename_i ht
        refine aimsAt_advance_bind (by simp [ht]) fun _ => aims_ctor?_bind fun c => ?_
        split
        · exact aims_pure _
        · exact aims_pure _
      · rename_i ht
        refine aimsAt_advance_bind (by simp [ht]) fun _ => (aims_expr n).bind fun e => ?_
        refine aims_check_bind (fun colon hcolon => ?_) fun _ _ => ?_
        · -- the only place where a type stands in an expression
          refine aimsAt_advance_bind_behind (by simp [hcolon]) fun _ => ?_
          exact (aimsOrCuts_type n).1.bind_rparen (Expr.annot colon.pos e)
        · exact ((aims_expect (by simp)).bind fun _ => aims_pure e).at
      · exact aimsAt_badAtom t

end

/-! ## Declarations and lines -/

theorem aims_synchronize : ∀ n, Aims ts z (synchronize n)
  | 0 => aims_pure _
  | n + 1 => by
      rw [synchronize]
      refine aims_current_bind fun t => ?_
      split
      · exact (aims_pure _).at
      · exact (aims_pure _).at
      · exact (aims_pure _).at
      · rename_i ht
        exact aimsAt_advance_bind (by simp [ht]) fun _ => aims_pure _
      · rename_i ht _ _ _
        exact aimsAt_advance_bind ht fun _ => aims_synchronize n

theorem aims_declare {c : Constructor} (ht : t ∈ ts ++ [z]) (hc : c.pos = t.pos) :
    Aims ts z (declare c) := by
  have hinsert : Aims ts z (modify fun s : State => { s with ctors := s.ctors.insert c }) :=
    fun s hs => hs.imp (fun h => ⟨h.rest, h.stop, h.diags⟩) fun h => ⟨h.rest, h.reported, h.diags⟩
  refine aims_ctor?_bind fun c' => ?_
  split
  · refine (aims_report ?_).bind fun _ => hinsert
    exact ⟨t, ht, hc⟩
  · exact hinsert

theorem aims_constructors (type : String) : ∀ n, Aims ts z (constructors n type)
  | 0 => aims_pure _
  | n + 1 => by
      rw [constructors]
      refine aims_expect_bind (by simp) fun t ht => ?_
      split
      · exact aims_pure _
      · rename_i hident
        have hmem := ht (not_not.mp hident)
        refine (aims_atomicTypes n).bind fun _ => (aims_declare hmem rfl).bind fun _ => ?_
        refine (aims_accept (by simp)).bind fun b => ?_
        split
        · exact (aims_constructors type n).bind fun _ => aims_pure _
        · exact aims_pure _

theorem aims_dataDecl (n : Nat) : Aims ts z (dataDecl n) := by
  refine (aims_expect (by simp)).bind fun t => (aims_expect (by simp)).bind fun x => ?_
  split
  · exact (aims_synchronize n).bind fun _ => aims_pure _
  · refine (aims_expect (by simp)).bind fun _ => ?_
    refine (aims_constructors x.text n).bind fun cs => ?_
    cases cs with
    | none => exact (aims_synchronize n).bind fun _ => aims_pure _
    | some cs => exact (aims_expect (by simp)).bind fun _ => aims_pure _

theorem aims_dataDecls : ∀ n, Aims ts z (dataDecls n)
  | 0 => aims_pure _
  | n + 1 => by
      rw [dataDecls]
      refine aims_check_bind (fun _ _ => ?_) fun _ _ => (aims_pure _).at
      refine ((aims_dataDecl n).bind fun d => ?_).at
      exact (aims_dataDecls n).bind fun ds => aims_pure _

theorem aims_finish : Aims ts z finish := by
  refine (aims_accept (by simp)).bind fun _ => aims_current_bind fun t => ?_
  split
  · exact aimsAt_complain t _
  · exact (aims_pure _).at

/-- There are no types in imports. -/
theorem State.OnTokens.importDecls (h : s.OnTokens ts z) (n : Nat) :
    ((importDecls n).run s).2.OnTokens ts z := by
  induction n generalizing s with
  | zero => exact h
  | succ n ih =>
      rw [Parser.importDecls, check_bind_run]
      split
      · have himport : (importDecl.run s).2.OnTokens ts z :=
          ((h.expect (by simp)).expect (by simp)).expect (by simp)
        exact ih himport
      · exact h

theorem State.OnTokens.program (h : s.OnTokens ts z) (n : Nat) : ((program n).run s).2.Aimed ts z := by
  rw [Parser.program, bind_run]
  refine (?_ : Aims ts z _) _ (Or.inl (h.importDecls n))
  refine (aims_dataDecls n).bind fun ds => aims_current_bind fun t => ?_
  split
  · exact (aimsAt_complain t _).bind fun _ => aims_pure _
  · split
    · exact (aims_pure _).at
    · exact ((aims_expr n).bind fun e => aims_finish.bind fun _ => aims_pure _).at

theorem aims_soleExpr (n : Nat) : Aims ts z (soleExpr n) :=
  (aims_expr n).bind fun e => (aims_finish).bind fun _ => aims_pure e

theorem aims_definition (n : Nat) : Aims ts z (definition n) := by
  refine (aims_expect (by simp)).bind fun _ => (aims_binderName).bind fun _ => ?_
  refine (aims_expect (by simp)).bind fun _ => (aims_expr n).bind fun _ => ?_
  refine aims_current_bind fun t => ?_
  dsimp only
  split
  · exact (aims_pure _).at
  · refine ((aims_expect (by simp)).bind fun _ => (aims_expr n).bind fun _ => ?_).at
    exact aims_pure _

theorem aims_line (n : Nat) : Aims ts z (line n) := by
  refine (aims_dataDecls n).bind fun ds => aims_current_bind fun t => ?_
  split
  · exact (aims_pure _).at
  · refine ((aims_definition n).bind fun r => ?_).at
    exact (aims_finish).bind fun _ => aims_pure _
  · exact ((aims_expr n).bind fun e => (aims_finish).bind fun _ => aims_pure _).at

end Rules

theorem State.Aimed.points (h : s.Aimed ts z) :
    (∀ d ∈ s.diags, PointsInto (ts ++ [z]) d) ∨ PointsAstray (ts ++ [z]) s.diags :=
  h.imp State.OnTokens.diags State.Overrun.diags

end Tokens

/-- At the start all tokens are left. -/
theorem State.onTokens_start (source : List UInt8) (Γ : CtorTable) :
    ∃ ts z, Lexer.tokenize source = ts ++ [z] ∧ (State.start source Γ).OnTokens ts z := by
  obtain ⟨ts, z, htokens, -, hz⟩ := Lexer.tokenize_eq_concat source
  exact ⟨ts, z, htokens, ⟨ts, List.suffix_rfl, htokens⟩, hz, by simp [State.start]⟩

/-- **Messages point at tokens.** Every message about a program, an expression or an interactive line is
at the place of a token of the text, the end of the input included, but for one: if the input ends where
a type is expected then the message about this is followed by another one about the parenthesis that is
not closed, which is at no known place. All messages about imports are at tokens. -/
theorem parse_diags_point (source : List UInt8) (Γ : CtorTable) :
    let ts := Lexer.tokenize source
    let Points (ds : List Diagnostic) := (∀ d ∈ ds, PointsInto ts d) ∨ PointsAstray ts ds
    Points (parseProgram source Γ).2.diags ∧ Points (parseExpr source Γ).2.diags ∧
      Points (parseLine source Γ).2.diags ∧ ∀ d ∈ (parseImports source).2.diags, PointsInto ts d := by
  obtain ⟨ts, z, htokens, hstart⟩ := State.onTokens_start source Γ
  obtain ⟨ts', z', htokens', hstart'⟩ := State.onTokens_start source []
  intro tokens Points
  have hpoints {s : State} (hs : s.Aimed ts z) : Points s.diags := by
    show (∀ d ∈ s.diags, PointsInto (Lexer.tokenize source) d) ∨ PointsAstray (Lexer.tokenize source) s.diags
    rw [htokens]
    exact hs.points
  refine ⟨hpoints (hstart.program _), hpoints (aims_soleExpr _ _ (Or.inl hstart)),
    hpoints (aims_line _ _ (Or.inl hstart)), ?_⟩
  show ∀ d ∈ _, PointsInto (Lexer.tokenize source) d
  rw [htokens']
  exact (hstart'.importDecls _).diags

/-- A parenthesis that is not closed is reported at no token of the text. -/
theorem parseExpr_points_astray :
    let source := Text.encode "(x :"
    (parseExpr source []).2.diags = [missingType (.endAt ⟨1, 5⟩), missingParen] ∧
      ¬ PointsInto (Lexer.tokenize source) missingParen := by
  unfold PointsInto
  decide +kernel

end FunLang.Parser
