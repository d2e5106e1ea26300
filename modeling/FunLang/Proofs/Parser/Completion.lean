import FunLang.Proofs.Parser.Tracks
import FunLang.Proofs.Token.Spelling

set_option autoImplicit false

/-!
# Inputs that can be completed

If all that is reported about an input is that it ends, then it can be gone on with to something that is
read without a message. The text to go on with is found by following the parser: where it first misses
something, a shortest phrase of the kind that it looks for is put in, and after it what the rest of the
parser asks for.

`CompletesAt` says this for a parser from a given state and a set `L` of phrases, and `Completes M N` for
all inputs of less than `M` tokens, of which less than `N` are left over. The text to go on with has no
number in it, so that a minus sign at the end of the input is not taken for the sign of one.
-/

namespace FunLang.Parser

open Grammar Lexer

variable {α β : Type}

/-! ## Texts to go on with -/

/-- Some text makes a phrase of `L` out of the tokens `ts`. None of its tokens is a number. -/
def Completable (L : List Token → Prop) (ts : List Token) : Prop :=
  ∃ more, Opens more fun us => L (ts ++ us) ∧ ∀ u ∈ us, u.kind ≠ .intLit

section Completable

variable {L R : List Token → Prop} {ts : List Token}

theorem Completable.mono (h : Completable L ts) {L' : List Token → Prop} {ts' : List Token}
    (hL : ∀ us, L (ts ++ us) → L' (ts' ++ us)) : Completable L' ts' := by
  obtain ⟨more, hmore⟩ := h
  exact ⟨more, hmore.mono fun us hus => ⟨hL us hus.1, hus.2⟩⟩

theorem completable_self (h : L ts) : Completable L ts := by
  refine ⟨"", (opens_gap rfl).mono ?_⟩
  rintro _ rfl
  rw [List.append_nil]
  exact ⟨h, by simp⟩

theorem Completable.append (h : Completable L ts) (h' : Completable R []) :
    Completable (Concat L R) ts := by
  obtain ⟨more, hmore⟩ := h
  obtain ⟨more', hmore'⟩ := h'
  refine ⟨more ++ more', (hmore.append_opens hmore').mono ?_⟩
  rintro _ ⟨us, vs, rfl, ⟨hL, hus⟩, hR, hvs⟩
  refine ⟨⟨ts ++ us, vs, by rw [List.append_assoc], hL, hR⟩, fun u hu => ?_⟩
  rcases List.mem_append.mp hu with hu | hu
  · exact hus u hu
  · exact hvs u hu

/-- A single token of the given kind. -/
def IsKind (k : TokenKind) (ts : List Token) : Prop := ∃ t, ts = [t] ∧ t.kind = k

theorem completable_of_spells {s : String} {k : TokenKind} (h : Spells s (IsToken k s))
    (hk : k ≠ .intLit) (hL : ∀ t, t.kind = k → t.literal = Text.encode s → L [t]) : Completable L [] := by
  refine ⟨s ++ " ", (h.append_opens (opens_gap rfl) rfl).mono ?_⟩
  rintro _ ⟨_, _, rfl, ⟨t, rfl, ht, hs⟩, rfl⟩
  exact ⟨hL t ht hs, by simpa [ht] using hk⟩

theorem completable_keyword (w : String) (k : TokenKind) (h : (w, k) ∈ TokenKind.keywords) :
    Completable (IsKind k) [] := by
  refine completable_of_spells (spells_keyword h) ?_ fun t ht _ => ⟨t, rfl, ht⟩
  rintro rfl
  revert h
  simp [TokenKind.keywords]

theorem completable_symbol (s : String) (k : TokenKind) (h : (s, k) ∈ symbols) :
    Completable (IsKind k) [] := by
  refine completable_of_spells (spells_symbol h) ?_ fun t ht _ => ⟨t, rfl, ht⟩
  rintro rfl
  revert h
  simp [symbols]

/-- There is always a name that no constructor has. -/
theorem exists_fresh (Γ : CtorTable) :
    ∃ x, isWord x = true ∧ TokenKind.ofWord x = .ident ∧ Γ.find? x = none := by
  obtain ⟨n, hn⟩ : ∃ n, ∀ c ∈ Γ, c.name.toList.length ≤ n := by
    induction Γ with
    | nil => exact ⟨0, by simp⟩
    | cons c Γ ih =>
        obtain ⟨n, hn⟩ := ih
        refine ⟨max c.name.toList.length n, ?_⟩
        rintro d (_ | ⟨_, hd⟩)
        · exact le_max_left _ _
        · exact (hn d hd).trans (le_max_right _ _)
  -- a name that is longer than all others, of a letter that no reserved word starts with
  refine ⟨String.ofList ('x' :: List.replicate n 'x'), ?_, ?_, ?_⟩
  · have hascii : ∀ c ∈ 'x' :: List.replicate n 'x', c.toNat < 128 := by simp
    simp only [isWord, Text.encode, String.toList_ofList, Text.flatMap_utf8EncodeChar hascii]
    simp [isLetter, isWordPart, Text.byteIn]
  · have hkeywords : ∀ p ∈ TokenKind.keywords, p.1.toList.head? ≠ some 'x' := by decide
    have hlookup : TokenKind.keywords.lookup (String.ofList ('x' :: List.replicate n 'x')) = none := by
      refine List.lookup_eq_none_iff.mpr fun p hp => ?_
      rw [bne_iff_ne]
      intro heq
      exact hkeywords p hp (by rw [← heq, String.toList_ofList]; rfl)
    rw [TokenKind.ofWord, hlookup]
    rfl
  · refine List.find?_eq_none.mpr fun c hc heq => ?_
    have hlen := hn c hc
    rw [beq_iff_eq.mp heq, String.toList_ofList, List.length_cons, List.length_replicate] at hlen
    omega

/-- The name of a variable. -/
def IsName (Γ : CtorTable) (ts : List Token) : Prop := ∃ x, ts = [x] ∧ IsVariable Γ x

theorem completable_name (Γ : CtorTable) : Completable (IsName Γ) [] := by
  obtain ⟨x, hword, hkind, hfind⟩ := exists_fresh Γ
  have hspells := spells_word hword
  rw [hkind] at hspells
  refine completable_of_spells hspells (by simp) fun t ht hs => ⟨t, rfl, ht, ?_⟩
  rw [Token.text, hs, Text.decode_encode]
  exact hfind

end Completable

/-! ## Completion -/

/-- None of the tokens is the end of the input or speaks of it. -/
def Ordinary (ts : List Token) : Prop := ∀ t ∈ ts, t.kind ≠ .eof ∧ ¬ MentionsEnd t.text

theorem Ordinary.of_append_right {us ws : List Token} (h : Ordinary (us ++ ws)) : Ordinary ws :=
  fun t ht => h t (List.mem_append_right us ht)

theorem Ordinary.tail {t : Token} {ts : List Token} (h : Ordinary (t :: ts)) : Ordinary ts :=
  fun u hu => h u (List.mem_cons_of_mem t hu)

theorem Ordinary.not_mentionsEnd {t : Token} {ts : List Token} (h : Ordinary (t :: ts)) :
    ¬ MentionsEnd t.describe := by
  obtain ⟨hk, htext⟩ := h t List.mem_cons_self
  exact (Token.mentionsEnd_describe_iff hk).not.mpr htext

section Completes

variable (z : Token)

/-- If `p` reports something on `ts`, and all of it is that the input ends, then `ts` can be gone on with to
a phrase of `L`. -/
def CompletesAt (p : Parser α) (L : List Token → Prop) (Γ : CtorTable) (ts : List Token) : Prop :=
  (p.run (.before Γ (ts ++ [z]))).2.AboutEnd → (p.run (.before Γ (ts ++ [z]))).2.diags ≠ [] →
    Completable L ts

/-- The property for all inputs of less than `M` tokens. If nothing is reported, a phrase of `L` is read
and less than `N` tokens are left. Some phrase of `L` can be put in where nothing is left to be read. -/
structure Completes (M N : Nat) (p : Parser α) (L : CtorTable → List Token → Prop) : Prop where
  grows : Moves State.Grows p
  minimal : ∀ Γ, Completable (L Γ) []
  reads : ∀ {Γ ts a Γ' rest}, ts.length < M → Yields p (.before Γ (ts ++ [z])) a (.before Γ' rest) →
    Γ' = Γ ∧ ∃ us ws, ts = us ++ ws ∧ rest = ws ++ [z] ∧ ws.length < N ∧ L Γ us
  at_lt : ∀ {Γ ts}, ts.length < M → Ordinary ts → CompletesAt z p (L Γ) Γ ts

variable {z} {M N K : Nat} {Γ : CtorTable} {ts : List Token} {p : Parser α} {f : α → Parser β}

/-- The first of two parsers, or the second one after the first, is where the input ends. -/
theorem CompletesAt.bind {L : List Token → Prop} (hgrows : Moves State.Grows p)
    (hgrows' : ∀ a, Moves State.Grows (f a)) (hp : CompletesAt z p L Γ ts)
    (hf : ∀ a Γ' rest, Yields p (.before Γ (ts ++ [z])) a (.before Γ' rest) →
      ((f a).run (.before Γ' rest)).2.AboutEnd → ((f a).run (.before Γ' rest)).2.diags ≠ [] →
        Completable L ts) : CompletesAt z (p >>= f) L Γ ts := by
  intro hend hdiags
  by_cases hfirst : (p.run (.before Γ (ts ++ [z]))).2.diags = []
  · have hbefore := State.eq_before_of_grows (hgrows (.before Γ (ts ++ [z]))) (by simp [State.before])
      hfirst
    refine hf _ _ _ (Prod.ext rfl hbefore) ?_ ?_
    · rw [← hbefore]
      exact hend
    · rw [← hbefore]
      exact hdiags
  · exact hp (fun d hd => hend d ((hgrows' _ _).diags.subset hd)) hfirst

/-- Where nothing is reported there is nothing to complete. -/
theorem completesAt_of_yields {L : List Token → Prop} {a : α} {Γ' : CtorTable} {rest : List Token}
    (h : Yields p (.before Γ (ts ++ [z])) a (.before Γ' rest)) : CompletesAt z p L Γ ts := by
  intro _ hdiags
  have hrun : p.run (.before Γ (ts ++ [z])) = (a, .before Γ' rest) := h
  rw [hrun] at hdiags
  exact absurd rfl hdiags

/-- Where something else is reported there is nothing to complete either. -/
theorem completesAt_of_mem {L : List Token → Prop} {d : Diagnostic}
    (hd : d ∈ (p.run (.before Γ (ts ++ [z]))).2.diags) (h : MentionsEnd d.message → Completable L ts) :
    CompletesAt z p L Γ ts := fun hend _ => h (hend d hd)

section Rules

variable {L R : CtorTable → List Token → Prop}

theorem Completes.zero (hgrows : Moves State.Grows p) (hmin : ∀ Γ, Completable (L Γ) []) :
    Completes z 0 N p L where
  grows := hgrows
  minimal := hmin
  reads := fun h => absurd h (Nat.not_lt_zero _)
  at_lt := fun h => absurd h (Nat.not_lt_zero _)

theorem Completes.mono (h : Completes z M N p L) (hL : ∀ Γ ts, L Γ ts → R Γ ts) :
    Completes z M N p R where
  grows := h.grows
  minimal := fun Γ => (h.minimal Γ).mono fun us => hL Γ us
  reads := by
    intro Γ ts a Γ' rest hlen hyields
    obtain ⟨rfl, us, ws, hts, hrest, hws, hus⟩ := h.reads hlen hyields
    exact ⟨rfl, us, ws, hts, hrest, hws, hL _ us hus⟩
  at_lt := fun hlen hts hend hdiags => (h.at_lt hlen hts hend hdiags).mono fun us => hL _ _

theorem Completes.weaken (h : Completes z M N p L) {M' N' : Nat} (hM : M' ≤ M) (hN : N ≤ N') :
    Completes z M' N' p L where
  grows := h.grows
  minimal := h.minimal
  reads := by
    intro Γ ts a Γ' rest hlen hyields
    obtain ⟨rfl, us, ws, hts, hrest, hws, hus⟩ := h.reads (hlen.trans_le hM) hyields
    exact ⟨rfl, us, ws, hts, hrest, hws.trans_le hN, hus⟩
  at_lt := fun hlen hts => h.at_lt (hlen.trans_le hM) hts

theorem Completes.keep (h : Completes z (M + 1) M p L) : Completes z M M p L :=
  h.weaken (Nat.le_succ M) le_rfl

/-- A phrase that is not empty leaves less tokens over. -/
theorem Completes.shrink (h : Completes z (M + 1) N p L) (hpos : ∀ Γ ts, L Γ ts → 0 < ts.length) :
    Completes z (M + 1) M p L where
  grows := h.grows
  minimal := h.minimal
  reads := by
    intro Γ ts a Γ' rest hlen hyields
    obtain ⟨rfl, us, ws, rfl, hrest, -, hus⟩ := h.reads hlen hyields
    have hpos := hpos _ us hus
    rw [List.length_append] at hlen
    exact ⟨rfl, us, ws, rfl, hrest, by omega, hus⟩
  at_lt := h.at_lt

theorem completes_pure (a : α) : Completes z M M (pure a) fun _ ts => ts = [] where
  grows := moves_pure stepwise_grows a
  minimal := fun _ => completable_self rfl
  reads := by
    intro Γ ts b Γ' rest hlen hyields
    have heq : (a, State.before Γ (ts ++ [z])) = (b, State.before Γ' rest) := hyields
    simp only [State.before, Prod.mk.injEq, State.mk.injEq, true_and] at heq
    obtain ⟨-, rfl, rfl⟩ := heq
    exact ⟨rfl, [], ts, rfl, rfl, hlen, rfl⟩
  at_lt := fun _ _ => completesAt_of_yields (yields_pure a _)

theorem Completes.bind (hp : Completes z M N p L) (hf : ∀ a, Completes z N K (f a) R) :
    Completes z M K (p >>= f) fun Γ => Concat (L Γ) (R Γ) where
  grows := hp.grows.bind stepwise_grows fun a => (hf a).grows
  minimal := fun Γ => (hp.minimal Γ).append ((hf (p.run (.before Γ [])).1).minimal Γ)
  reads := by
    intro Γ ts b Γ' rest hlen hyields
    obtain ⟨a, Γ₁, rest₁, hfirst, hsecond⟩ := hyields.exists_of_bind hp.grows fun a => (hf a).grows
    obtain ⟨rfl, us, ws, rfl, rfl, hws, hL⟩ := hp.reads hlen hfirst
    obtain ⟨rfl, us', ws', rfl, hrest, hws', hR⟩ := (hf a).reads hws hsecond
    exact ⟨rfl, us ++ us', ws', by rw [List.append_assoc], hrest, hws', us, us', rfl, hL, hR⟩
  at_lt := by
    intro Γ ts hlen hts
    refine CompletesAt.bind hp.grows (fun a => (hf a).grows) ?_ ?_
    · intro hend hdiags
      exact (hp.at_lt hlen hts hend hdiags).append ((hf (p.run (.before Γ [])).1).minimal Γ)
    · intro a Γ' rest hfirst hend hdiags
      obtain ⟨rfl, us, ws, rfl, rfl, hws, hL⟩ := hp.reads hlen hfirst
      have hsecond := (hf a).at_lt hws hts.of_append_right hend hdiags
      refine hsecond.mono fun vs hvs => ?_
      rw [List.append_assoc]
      exact ⟨us, ws ++ vs, rfl, hL, hvs⟩

theorem Completes.map (h : Completes z M N p L) (g : α → β) :
    Completes z M N (do return g (← p)) L := by
  refine (h.bind fun a => completes_pure (g a)).mono fun Γ ts => ?_
  rw [concat_nil_right]
  exact id

/-- The end of the input is not among the tokens that are read. -/
theorem Passes.exists_append (hz : z.kind = .eof) {Γ' : CtorTable} {us rest : List Token}
    (h : Passes (.before Γ (ts ++ [z])) us (.before Γ' rest)) : ∃ ws, ts = us ++ ws ∧ rest = ws ++ [z] := by
  have hrest : ts ++ [z] = us ++ rest := h.rest
  rcases List.append_eq_append_iff.mp hrest with ⟨vs, rfl, hvs⟩ | ⟨ws, rfl, rfl⟩
  · rcases List.append_eq_singleton_iff.mp hvs.symm with ⟨rfl, rfl⟩ | ⟨rfl, -⟩
    · exact ⟨[], by simp, rfl⟩
    · exact absurd hz (h.inside z (by simp))
  · exact ⟨ws, rfl, rfl⟩

theorem Yields.exists_append (hz : z.kind = .eof) {n c : Nat} {Γ' : CtorTable} {rest : List Token} {a : α}
    {Q : α → State → CtorTable → List Token → Prop}
    (h : Yields p (.before Γ (ts ++ [z])) a (.before Γ' rest))
    (hreads : Ensures .none p (.before Γ (ts ++ [z])) fun a s' =>
      Phrase n c (.before Γ (ts ++ [z])) s' (Q a s'))
    (hn : 8 * (ts.length + 1) + c ≤ n) :
    Γ' = Γ ∧ ∃ us ws, ts = us ++ ws ∧ rest = ws ++ [z] ∧ Q a (.before Γ (ws ++ [z])) Γ us := by
  obtain ⟨us, hread, hQ⟩ := h.of_ensures hreads (by simpa [State.before] using hn)
  obtain rfl : Γ' = Γ := hread.ctors
  obtain ⟨ws, rfl, rfl⟩ := hread.toPasses.exists_append hz
  exact ⟨rfl, us, ws, rfl, rfl, hQ⟩

/-- It is enough to look at inputs that are not empty. -/
theorem Completes.of_ensures (hz : z.kind = .eof) {n c : Nat}
    {Q : State → α → State → CtorTable → List Token → Prop} (hgrows : Moves State.Grows p)
    (hreads : ∀ s, Ensures .none p s fun a s' => Phrase n c s s' (Q s a s'))
    (hL : ∀ s a s' Γ ts, Q s a s' Γ ts → L Γ ts) (hn : 8 * (M + 1) + c ≤ n)
    (hmin : ∀ Γ, Completable (L Γ) [])
    (hat : ∀ Γ t ts, ts.length < M → Ordinary (t :: ts) → CompletesAt z p (L Γ) Γ (t :: ts)) :
    Completes z (M + 1) (M + 1) p L where
  grows := hgrows
  minimal := hmin
  reads := by
    intro Γ ts a Γ' rest hlen hyields
    obtain ⟨rfl, us, ws, rfl, rfl, hQ⟩ := hyields.exists_append hz (hreads _) (by omega)
    rw [List.length_append] at hlen
    exact ⟨rfl, us, ws, rfl, rfl, by omega, hL _ _ _ _ _ hQ⟩
  at_lt := by
    intro Γ ts hlen hts
    cases ts with
    | nil => exact fun _ _ => hmin Γ
    | cons t ts => exact hat Γ t ts (by simpa using hlen) hts

end Rules

/-! ## Basic parsers -/

theorem Ordinary.eq_nil_of_mentionsEnd (hts : Ordinary ts)
    (h : MentionsEnd (State.before Γ (ts ++ [z])).current.describe) : ts = [] := by
  cases ts with
  | nil => rfl
  | cons t ts => exact absurd h hts.not_mentionsEnd

theorem State.length_before (Γ : CtorTable) (ts : List Token) (z : Token) :
    (State.before Γ (ts ++ [z])).rest.length = ts.length + 1 := by
  simp [State.before]

theorem completesAt_current_bind {g : Token → Parser β} {t : Token} {L : List Token → Prop}
    (h : CompletesAt z (g t) L Γ (t :: ts)) : CompletesAt z (current >>= g) L Γ (t :: ts) := h

theorem completesAt_ctor?_bind {name : String} {g : Option Constructor → Parser β}
    {L : List Token → Prop} (h : CompletesAt z (g (Γ.find? name)) L Γ ts) :
    CompletesAt z (ctor? name >>= g) L Γ ts := h

theorem mem_diags_complain (t : Token) (message : String) (Γ : CtorTable) (ts : List Token) :
    .error t.pos message ∈ ((complain t message).run (.before Γ ts)).2.diags := by
  show Diagnostic.error t.pos message ∈ [] ++ [Diagnostic.error t.pos message]
  simp

theorem completesAt_complain_bind {g : Unit → Parser β} (hg : ∀ u, Moves State.Grows (g u)) {t : Token}
    {message : String} {L : List Token → Prop} (h : MentionsEnd message → Completable L ts) :
    CompletesAt z (complain t message >>= g) L Γ ts :=
  completesAt_of_mem ((hg () _).diags.subset (mem_diags_complain t message Γ _)) h

theorem completesAt_advance_bind {g : Token → Parser β} {t : Token} {L R : List Token → Prop}
    (h : CompletesAt z (g t) R Γ ts) (hL : ∀ us, R us → L (t :: us)) :
    CompletesAt z (advance >>= g) L Γ (t :: ts) := fun hend hdiags =>
  (h hend hdiags).mono fun _ hus => hL _ hus

theorem completesAt_expect_bind {g : Token → Parser β} {k : TokenKind} {t : Token} (ht : t.kind = k)
    {L R : List Token → Prop} (h : CompletesAt z (g t) R Γ ts) (hL : ∀ us, R us → L (t :: us)) :
    CompletesAt z (expect k >>= g) L Γ (t :: ts) := by
  intro hend hdiags
  rw [List.cons_append, (yields_expect ht (ts ++ [z])).run_bind] at hend hdiags
  exact (h hend hdiags).mono fun _ hus => hL _ hus

/-- A token that is expected is found missing where the input ends. -/
theorem completesAt_expect (hts : Ordinary ts) (k : TokenKind) {L : List Token → Prop}
    (h : ts = [] → Completable L []) : CompletesAt z (expect k) L Γ ts := by
  show CompletesAt z (if (State.before Γ (ts ++ [z])).current.kind = k then advance else _) L Γ ts
  split
  · intro _ hdiags
    refine absurd ?_ hdiags
    show ((State.before Γ (ts ++ [z])).advance).diags = []
    unfold State.advance
    split <;> rfl
  · refine completesAt_complain_bind (fun _ => moves_pure stepwise_grows _) fun hm => ?_
    obtain rfl := hts.eq_nil_of_mentionsEnd ((mentionsEnd_expected_iff k _).mp hm)
    exact h rfl

/-- A token that is expected is missing, or there, or another one stands in its place. -/
theorem completesAt_expect_cases {g : Token → Parser β} (hg : ∀ t, Moves State.Grows (g t)) {k : TokenKind}
    (hk : k ≠ .eof) (hts : Ordinary ts) {L : List Token → Prop} (hnil : ts = [] → Completable L [])
    (hcons : ∀ t us, ts = t :: us → t.kind = k → CompletesAt z (g t) (fun vs => L (t :: vs)) Γ us) :
    CompletesAt z (expect k >>= g) L Γ ts := by
  cases ts with
  | nil => exact fun _ _ => hnil rfl
  | cons t ts =>
      by_cases ht : t.kind = k
      · exact completesAt_expect_bind ht (hcons t ts rfl ht) fun _ => id
      · refine CompletesAt.bind (moves_expect stepwise_grows k) hg (completesAt_expect hts k (by simp)) ?_
        intro a Γ' rest hyields _ _
        obtain ⟨ha, hread⟩ := hyields.of_ensures (ensures_expect hk _)
        have hta : t = a := hread.current_eq
        exact absurd (hta ▸ ha) ht

theorem completes_expect (hz : z.kind = .eof) {k : TokenKind} (hk : k ≠ .eof)
    (hmin : Completable (IsKind k) []) : Completes z (M + 1) M (expect k) fun _ => IsKind k := by
  refine Completes.shrink (N := M + 1) (.of_ensures (n := 8 * (M + 1)) (c := 0)
    (Q := fun _ _ _ _ => IsKind k) hz (moves_expect stepwise_grows k) (fun s => ?_)
    (fun _ _ _ _ _ => id) (by omega) (fun _ => hmin) fun Γ t ts _ hts =>
      completesAt_expect hts k (by simp)) ?_
  · refine (ensures_expect hk s).mono fun t s' ht _ => ?_
    exact ⟨[t], ht.2, t, rfl, ht.1⟩
  · rintro Γ _ ⟨t, rfl, -⟩
    simp

theorem completes_keyword (hz : z.kind = .eof) (w : String) (k : TokenKind)
    (h : (w, k) ∈ TokenKind.keywords) : Completes z (M + 1) M (expect k) fun _ => IsKind k := by
  refine completes_expect hz ?_ (completable_keyword w k h)
  rintro rfl
  revert h
  simp [TokenKind.keywords]

theorem completes_symbol (hz : z.kind = .eof) (s : String) (k : TokenKind) (h : (s, k) ∈ symbols) :
    Completes z (M + 1) M (expect k) fun _ => IsKind k := by
  refine completes_expect hz ?_ (completable_symbol s k h)
  rintro rfl
  revert h
  simp [symbols]

theorem completes_binderName (hz : z.kind = .eof) : Completes z (M + 1) M binderName IsName := by
  refine Completes.shrink (N := M + 1) (.of_ensures (n := 8 * (M + 1)) (c := 0)
    (Q := fun _ _ _ => IsName) hz (moves_binderName stepwise_grows) (fun s => ?_)
    (fun _ _ _ _ _ => id) (by omega) completable_name fun Γ t ts _ hts => ?_) ?_
  · refine (ensures_binderName s).mono ?_
    rintro _ s' ⟨t, hread, ht, -⟩ _
    exact ⟨[t], hread, t, rfl, ht⟩
  · unfold binderName
    refine completesAt_expect_cases (fun t => ?_) (by simp) hts (by simp) fun x us hx hk => ?_
    · split
      · exact moves_pure stepwise_grows _
      · refine moves_ctor?_bind fun c => ?_
        split
        · exact (moves_complain stepwise_grows t _).bind stepwise_grows fun _ =>
            moves_pure stepwise_grows _
        · exact moves_pure stepwise_grows _
    · rw [if_neg (by simp [hk])]
      refine completesAt_ctor?_bind ?_
      split
      · refine completesAt_complain_bind (fun _ => moves_pure stepwise_grows _) fun hm => ?_
        exact absurd ((mentionsEnd_cannotBind_iff _).mp hm) (hts x (by simp [hx])).2
      · exact completesAt_of_yields (yields_pure _ _)
  · rintro Γ _ ⟨t, rfl, -⟩
    simp

theorem completes_current_bind {g : Token → Parser β} {L : CtorTable → List Token → Prop}
    (h : ∀ t, Completes z M N (g t) L) : Completes z M N (current >>= g) L where
  grows := moves_current_bind fun t => (h t).grows
  minimal := (h default).minimal
  reads := fun hlen hyields => (h _).reads hlen hyields
  at_lt := fun hlen hts => (h _).at_lt hlen hts

/-- A token that may be there or not: the two ways to go on. -/
theorem run_check_bind (hz : z.kind = .eof) {k : TokenKind} (hk : k ≠ .eof) (g : Token → Parser β)
    (g₀ : Parser β) (Γ : CtorTable) (ts : List Token) :
    (∃ t us, ts = t :: us ∧ t.kind = k ∧
      (do if ← check k then g (← advance) else g₀).run (.before Γ (ts ++ [z]))
        = (g t).run (.before Γ (us ++ [z]))) ∨
    (do if ← check k then g (← advance) else g₀).run (.before Γ (ts ++ [z]))
      = g₀.run (.before Γ (ts ++ [z])) := by
  have hcheck (b : Bool) (hb : ((State.before Γ (ts ++ [z])).current.kind == k) = b) :
      (do if ← check k then g (← advance) else g₀).run (.before Γ (ts ++ [z]))
        = (if b = true then advance >>= g else g₀).run (.before Γ (ts ++ [z])) := by
    rw [← hb]
    rfl
  cases ts with
  | nil =>
      refine Or.inr (hcheck false ?_)
      show (z.kind == k) = false
      rw [hz]
      simpa using hk.symm
  | cons t ts =>
      cases ht : t.kind == k with
      | true => exact Or.inl ⟨t, ts, rfl, by simpa using ht, hcheck true ht⟩
      | false => exact Or.inr (hcheck false ht)

theorem completes_check_bind (hz : z.kind = .eof) {k : TokenKind} (hk : k ≠ .eof) {g : Token → Parser β}
    {g₀ : Parser β} {R R₀ : CtorTable → List Token → Prop} (hg : ∀ t, Completes z M N (g t) R)
    (hg₀ : Completes z M N g₀ R₀) :
    Completes z M N (do if ← check k then g (← advance) else g₀) fun Γ ts =>
      R₀ Γ ts ∨ Concat (IsKind k) (R Γ) ts := by
  have hrun := run_check_bind hz hk g g₀
  refine ⟨?_, fun Γ => (hg₀.minimal Γ).mono fun _ => Or.inl, ?_, ?_⟩
  · refine moves_check_bind fun b => ?_
    split
    · exact (moves_advance stepwise_grows).bind stepwise_grows fun t => (hg t).grows
    · exact hg₀.grows
  · intro Γ ts a Γ' rest hlen hyields
    rcases hrun Γ ts with ⟨t, ts', rfl, ht, heq⟩ | heq
    · obtain ⟨rfl, us, ws, rfl, hrest, hws, hR⟩ :=
        (hg t).reads (Nat.lt_of_succ_lt hlen) (heq.symm.trans hyields)
      exact ⟨rfl, t :: us, ws, rfl, hrest, hws, Or.inr ⟨[t], us, rfl, ⟨t, rfl, ht⟩, hR⟩⟩
    · obtain ⟨rfl, us, ws, rfl, hrest, hws, hR⟩ := hg₀.reads hlen (heq.symm.trans hyields)
      exact ⟨rfl, us, ws, rfl, hrest, hws, Or.inl hR⟩
  · intro Γ ts hlen hts hend hdiags
    rcases hrun Γ ts with ⟨t, ts', rfl, ht, heq⟩ | heq
    · rw [heq] at hend hdiags
      refine ((hg t).at_lt (Nat.lt_of_succ_lt hlen) hts.tail hend hdiags).mono fun us hus => ?_
      exact Or.inr ⟨[t], ts' ++ us, rfl, ⟨t, rfl, ht⟩, hus⟩
    · rw [heq] at hend hdiags
      exact (hg₀.at_lt hlen hts hend hdiags).mono fun us => Or.inl

theorem accept_bind (k : TokenKind) (g : Bool → Parser β) :
    (accept k >>= g) = (do if ← check k then (do let _ ← advance; g true) else g false) := by
  unfold accept
  rw [bind_assoc]
  congr 1
  funext b
  cases b <;> rfl

theorem completes_accept_bind (hz : z.kind = .eof) {k : TokenKind} (hk : k ≠ .eof) {g : Bool → Parser β}
    {R R₀ : CtorTable → List Token → Prop} (hg : Completes z M N (g true) R)
    (hg₀ : Completes z M N (g false) R₀) :
    Completes z M N (accept k >>= g) fun Γ ts => R₀ Γ ts ∨ Concat (IsKind k) (R Γ) ts := by
  rw [accept_bind]
  exact completes_check_bind hz hk (fun _ => hg) hg₀

theorem completesAt_accept_bind (hz : z.kind = .eof) {k : TokenKind} (hk : k ≠ .eof) {g : Bool → Parser β}
    {L : List Token → Prop} (hfalse : CompletesAt z (g false) L Γ ts)
    (htrue : ∀ t us, ts = t :: us → t.kind = k → CompletesAt z (g true) (fun vs => L (t :: vs)) Γ us) :
    CompletesAt z (accept k >>= g) L Γ ts := by
  intro hend hdiags
  rw [accept_bind] at hend hdiags
  rcases run_check_bind hz hk (fun _ => g true) (g false) Γ ts with ⟨t, us, rfl, ht, heq⟩ | heq
  · rw [heq] at hend hdiags
    exact (htrue t us rfl ht hend hdiags).mono fun _ => id
  · rw [heq] at hend hdiags
    exact hfalse hend hdiags

/-- A number is read, or it is out of range. -/
theorem completesAt_intLiteral_bind {t : Token} (ht : ¬ MentionsEnd t.text) (negative : Bool)
    (g : Int64 → α) {L : List Token → Prop} :
    CompletesAt z (do return g (← intLiteral t negative)) L Γ ts := by
  unfold intLiteral
  generalize (if negative then - (digitsValue t.literal : Int) else digitsValue t.literal) = i
  by_cases hi : minInt ≤ i ∧ i ≤ maxInt
  · simp only [if_pos hi]
    exact completesAt_of_yields (yields_pure (g (Int64.ofInt i)) _)
  · simp only [if_neg hi]
    refine completesAt_of_mem (d := .error t.pos _) (List.mem_append_right [] List.mem_cons_self) ?_
    intro hm
    exact absurd ((mentionsEnd_outOfRange_iff negative t.text).mp hm) ht

/-- A minus sign and the digits after it, if there are any. -/
theorem completesAt_negated (hz : z.kind = .eof) {m : Token} (hts : Ordinary (m :: ts)) (g : Int64 → α)
    {bad : Parser α} {L : List Token → Prop} (hbad : CompletesAt z bad L Γ (m :: ts)) :
    CompletesAt z
      (peek >>= fun t => if t.kind = .intLit
        then (do let _ ← advance; let digits ← advance; return g (← intLiteral digits true)) else bad)
      L Γ (m :: ts) := by
  cases ts with
  | nil =>
      show CompletesAt z (if z.kind = .intLit then _ else bad) L Γ [m]
      rw [if_neg (by simp [hz])]
      exact hbad
  | cons t ts =>
      show CompletesAt z (if t.kind = .intLit then _ else bad) L Γ (m :: t :: ts)
      by_cases ht : t.kind = .intLit
      · rw [if_pos ht]
        have hdigits := (hts.tail t List.mem_cons_self).2
        refine completesAt_advance_bind (completesAt_advance_bind ?_ fun _ => id) fun _ => id
        exact completesAt_intLiteral_bind hdigits true g
      · rw [if_neg ht]
        exact hbad

end Completes

end FunLang.Parser
