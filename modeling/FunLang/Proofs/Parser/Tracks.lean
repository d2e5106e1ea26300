import FunLang.Proofs.Parser.Complete.Exprs
import FunLang.Proofs.Parser.Exhausted
import FunLang.Proofs.Parser.Sound.Exprs
import FunLang.Proofs.Parser.Stepwise

set_option autoImplicit false

/-!
# Inputs that are cut off

Two runs of a parser are compared: one on the tokens `ts ++ us`, which reports nothing, and one on `ts`
alone. As long as there are tokens of `ts` left, both do the same. So in the end they have come to the
same place, or the second one has run into the end of the input and reported nothing else
(`TracksAt`). The one exception is a minus sign at the end of `ts` before a number at the start of `us`:
it is the sign of that number, and without the number it is out of place.

The two runs may have different bounds on the depth of their calls. `Tracks M N` is about inputs of at
most `M` tokens, of which at most `N` are left over.
-/

namespace FunLang.Parser

open Grammar

variable {α β : Type}

/-! ## Runs without a message -/

theorem State.eq_before_of_grows {s s' : State} (h : s.Grows s')
    (hs : s.reported = true → s.diags ≠ []) (hs' : s'.diags = []) : s' = .before s'.ctors s'.rest := by
  have hreported : s'.reported = false := by
    by_contra hne
    exact h.reported hs (by simpa using hne) hs'
  cases s'
  simp_all [State.before]

theorem Yields.run_bind {p : Parser α} {s s' : State} {a : α} (h : Yields p s a s')
    (f : α → Parser β) : (p >>= f).run s = (f a).run s' := by
  show (f (p.run s).1).run (p.run s).2 = _
  rw [h]

/-- If two parsers one after the other report nothing then the first one does not. -/
theorem Yields.exists_of_bind {p : Parser α} {f : α → Parser β} {Γ Γ' : CtorTable}
    {ts rest : List Token} {b : β} (hp : Moves State.Grows p) (hf : ∀ a, Moves State.Grows (f a))
    (h : Yields (p >>= f) (.before Γ ts) b (.before Γ' rest)) :
    ∃ a Γ₁ rest₁, Yields p (.before Γ ts) a (.before Γ₁ rest₁) ∧
      Yields (f a) (.before Γ₁ rest₁) b (.before Γ' rest) := by
  have hgrows := hp (.before Γ ts)
  have hrun : (f (p.run (.before Γ ts)).1).run (p.run (.before Γ ts)).2 = (b, .before Γ' rest) := h
  cases hfirst : p.run (.before Γ ts) with
  | mk a s₁ =>
      rw [hfirst] at hgrows hrun
      have hdiags : s₁.diags = [] := by
        have hdiags := (hf a s₁).diags
        rw [hrun] at hdiags
        exact List.prefix_nil.mp hdiags
      have hbefore : s₁ = .before s₁.ctors s₁.rest :=
        State.eq_before_of_grows hgrows (by simp [State.before]) hdiags
      refine ⟨a, s₁.ctors, s₁.rest, ?_, ?_⟩
      · rw [← hbefore]
        exact hfirst
      · rw [← hbefore]
        exact hrun

theorem State.consistent_before (Γ : CtorTable) (ts : List Token) :
    (State.before Γ ts).Consistent .none :=
  ⟨by simp [State.before], by simp [State.before]⟩

/-- What a parser ensures if it reports nothing. -/
theorem Yields.of_ensures {p : Parser α} {Γ Γ' : CtorTable} {ts rest : List Token} {a : α}
    {Q : α → State → Prop} (h : Yields p (.before Γ ts) a (.before Γ' rest))
    (hensures : Ensures .none p (.before Γ ts) Q) : Q a (.before Γ' rest) := by
  obtain ⟨-, hclean⟩ := hensures (State.consistent_before Γ ts)
  have hrun : p.run (.before Γ ts) = (a, .before Γ' rest) := h
  rw [hrun] at hclean
  exact (hclean (State.within_none_iff.mpr rfl)).2

/-! ## The comparison -/

/-- No number stands behind a minus sign at the end of `ts`. -/
def Separate (ts us : List Token) : Prop :=
  ∀ m, ts.getLast? = some m → m.kind = .minus → nextKind us ≠ .intLit

theorem Separate.of_suffix {ts ws us : List Token} (h : Separate ts us) (hws : ws <:+ ts) :
    Separate ws us := by
  intro m hm
  obtain ⟨vs, rfl⟩ := hws
  refine h m ?_
  rw [List.getLast?_append, hm]
  rfl

section Tracks

variable (z : Token) (us : List Token)

/-- The parser `p` on `ts` compared with `p'` on `ts ++ us`. At most `N` tokens of `ts` are left over. -/
def TracksAt (N : Nat) (p p' : Parser α) (Γ : CtorTable) (ts : List Token) : Prop :=
  Separate ts us → ∀ a Γ' rest, Yields p' (.before Γ (ts ++ us)) a (.before Γ' rest) →
    (∃ ws, ws <:+ ts ∧ ws.length ≤ N ∧ rest = ws ++ us ∧
      Yields p (.before Γ (ts ++ [z])) a (.before Γ' (ws ++ [z]))) ∨
    (p.run (.before Γ (ts ++ [z]))).2.Exhausted

/-- The comparison for all inputs of at most `M` tokens. -/
structure Tracks (M N : Nat) (p p' : Parser α) : Prop where
  grows : Moves State.Grows p'
  idles : Idles p
  at_le : ∀ Γ ts, ts.length ≤ M → TracksAt z us N p p' Γ ts

variable {z us} {M N K : Nat} {Γ : CtorTable} {p p' : Parser α} {f f' : α → Parser β}

/-- At the end of the input there is nothing to compare. -/
theorem exhausted_before (hz : z.kind = .eof) (Γ : CtorTable) : (State.before Γ [z]).Exhausted :=
  ⟨rfl, hz, by simp [State.before, State.AboutEnd]⟩

theorem Tracks.of_cons (hz : z.kind = .eof) (hgrows : Moves State.Grows p') (hidles : Idles p)
    (h : ∀ Γ t ts, (t :: ts).length ≤ M → TracksAt z us N p p' Γ (t :: ts)) :
    Tracks z us M N p p' := by
  refine ⟨hgrows, hidles, fun Γ ts hts => ?_⟩
  cases ts with
  | nil => exact fun _ _ _ _ _ => Or.inr (hidles _ (exhausted_before hz Γ))
  | cons t ts => exact h Γ t ts hts

theorem Tracks.mono (h : Tracks z us M N p p') {M' N' : Nat} (hM : M' ≤ M) (hN : N ≤ N') :
    Tracks z us M' N' p p' := by
  refine ⟨h.grows, h.idles, fun Γ ts hts hsep a Γ' rest hyields => ?_⟩
  rcases h.at_le Γ ts (by omega) hsep a Γ' rest hyields with ⟨ws, hws, hlen, hrest⟩ | hend
  · exact Or.inl ⟨ws, hws, by omega, hrest⟩
  · exact Or.inr hend

/-- A parser that passes over a token, on inputs that are shorter by one. -/
theorem Tracks.keep (h : Tracks z us (M + 1) M p p') : Tracks z us M M p p' :=
  h.mono (Nat.le_succ M) le_rfl

theorem TracksAt.bind {ts : List Token} (hgrows : Moves State.Grows p') (hp : TracksAt z us N p p' Γ ts)
    (hf : ∀ a, Tracks z us N K (f a) (f' a)) : TracksAt z us K (p >>= f) (p' >>= f') Γ ts := by
  intro hsep b Γ' rest hyields
  obtain ⟨a, Γ₁, rest₁, hfirst, hsecond⟩ := hyields.exists_of_bind hgrows fun a => (hf a).grows
  rcases hp hsep a Γ₁ rest₁ hfirst with ⟨ws, hws, hlen, rfl, hfirst'⟩ | hend
  · have hrun := hfirst'.run_bind f
    rcases (hf a).at_le Γ₁ ws hlen (hsep.of_suffix hws) b Γ' rest hsecond with
      ⟨vs, hvs, hlen', hrest, hsecond'⟩ | hend
    · exact Or.inl ⟨vs, hvs.trans hws, hlen', hrest, hrun.trans hsecond'⟩
    · exact Or.inr (hrun ▸ hend)
  · exact Or.inr ((hf _).idles _ hend)

theorem Tracks.bind (hp : Tracks z us M N p p') (hf : ∀ a, Tracks z us N K (f a) (f' a)) :
    Tracks z us M K (p >>= f) (p' >>= f') :=
  ⟨hp.grows.bind stepwise_grows fun a => (hf a).grows, hp.idles.bind fun a => (hf a).idles,
    fun Γ ts hts => (hp.at_le Γ ts hts).bind hp.grows hf⟩

/-! ## Basic parsers -/

/-- Both parsers do the same. -/
theorem tracksAt_of_yields {ts ws : List Token} {a : α} {Γ' : CtorTable} (hws : ws <:+ ts)
    (hlen : ws.length ≤ N) (h' : Yields p' (.before Γ (ts ++ us)) a (.before Γ' (ws ++ us)))
    (h : Yields p (.before Γ (ts ++ [z])) a (.before Γ' (ws ++ [z]))) :
    TracksAt z us N p p' Γ ts := by
  intro _ b Γ'' rest hyields
  have heq : (a, State.before Γ' (ws ++ us)) = (b, State.before Γ'' rest) := h'.symm.trans hyields
  simp only [State.before, Prod.mk.injEq, State.mk.injEq, true_and] at heq
  obtain ⟨rfl, hrest, rfl⟩ := heq
  exact Or.inl ⟨ws, hws, hlen, hrest.symm, h⟩

/-- A parser that cannot do without a message need not be looked at. -/
theorem tracksAt_of_ensures {ts : List Token}
    (h : Ensures .none p' (.before Γ (ts ++ us)) fun _ _ => False) : TracksAt z us N p p' Γ ts :=
  fun _ _ _ _ hyields => absurd (hyields.of_ensures h) id

theorem tracksAt_pure (a : α) {ts : List Token} (hts : ts.length ≤ N) :
    TracksAt z us N (pure a) (pure a) Γ ts :=
  tracksAt_of_yields List.suffix_rfl hts (yields_pure _ _) (yields_pure _ _)

theorem tracks_pure (a : α) (hMN : M ≤ N) : Tracks z us M N (pure a : Parser α) (pure a) :=
  ⟨moves_pure stepwise_grows a, idles_pure a, fun _ _ hts => tracksAt_pure a (hts.trans hMN)⟩

theorem tracksAt_current_bind {g g' : Token → Parser β} {t : Token} {ts : List Token}
    (h : TracksAt z us N (g t) (g' t) Γ (t :: ts)) :
    TracksAt z us N (current >>= g) (current >>= g') Γ (t :: ts) := h

theorem tracksAt_check_bind {k : TokenKind} {g g' : Bool → Parser β} {t : Token} {ts : List Token}
    (h : TracksAt z us N (g (t.kind == k)) (g' (t.kind == k)) Γ (t :: ts)) :
    TracksAt z us N (check k >>= g) (check k >>= g') Γ (t :: ts) := h

theorem tracksAt_ctor?_bind {name : String} {g g' : Option Constructor → Parser β} {ts : List Token}
    (h : TracksAt z us N (g (Γ.find? name)) (g' (Γ.find? name)) Γ ts) :
    TracksAt z us N (ctor? name >>= g) (ctor? name >>= g') Γ ts := h

theorem tracks_current (hz : z.kind = .eof) : Tracks z us M M current current :=
  .of_cons hz stepwise_grows.refl (fun _ => id) fun _ _ _ hts =>
    tracksAt_of_yields List.suffix_rfl hts rfl rfl

theorem tracks_check (hz : z.kind = .eof) (k : TokenKind) : Tracks z us M M (check k) (check k) :=
  .of_cons hz stepwise_grows.refl (fun _ => id) fun _ _ _ hts =>
    tracksAt_of_yields List.suffix_rfl hts rfl rfl

theorem tracks_advance (hz : z.kind = .eof) : Tracks z us (M + 1) M advance advance :=
  .of_cons hz (moves_advance stepwise_grows) idles_advance fun _ t ts hts =>
    tracksAt_of_yields (List.suffix_cons t ts) (by rw [List.length_cons] at hts; omega) rfl rfl

theorem tracksAt_advance_bind {g g' : Token → Parser β} {t : Token} {ts : List Token}
    (h : TracksAt z us N (g t) (g' t) Γ ts) :
    TracksAt z us N (advance >>= g) (advance >>= g') Γ (t :: ts) := by
  intro hsep b Γ' rest hyields
  rcases h (hsep.of_suffix (List.suffix_cons t ts)) b Γ' rest hyields with ⟨ws, hws, hrest⟩ | hend
  · exact Or.inl ⟨ws, hws.trans (List.suffix_cons t ts), hrest⟩
  · exact Or.inr hend

/-- A token that is expected and there. -/
theorem tracksAt_expect_bind {k : TokenKind} {g g' : Token → Parser β} {t : Token} (ht : t.kind = k)
    {ts : List Token} (h : TracksAt z us N (g t) (g' t) Γ ts) :
    TracksAt z us N (expect k >>= g) (expect k >>= g') Γ (t :: ts) := by
  intro hsep b Γ' rest hyields
  have hyields' : Yields (g' t) (.before Γ (ts ++ us)) b (.before Γ' rest) :=
    ((yields_expect ht (ts ++ us)).run_bind g').symm.trans hyields
  have hrun := (yields_expect (Γ := Γ) ht (ts ++ [z])).run_bind g
  rcases h (hsep.of_suffix (List.suffix_cons t ts)) b Γ' rest hyields' with
    ⟨ws, hws, hlen, hrest, hg⟩ | hend
  · exact Or.inl ⟨ws, hws.trans (List.suffix_cons t ts), hlen, hrest, hrun.trans hg⟩
  · exact Or.inr (hrun ▸ hend)

/-- Without a message, the token that is expected is there. -/
theorem tracksAt_expect_bind_of_ne {k : TokenKind} (hk : k ≠ .eof) {g g' : Token → Parser β}
    (hgrows : ∀ t, Moves State.Grows (g' t)) {t : Token} (ht : t.kind ≠ k) (ts : List Token) :
    TracksAt z us N (expect k >>= g) (expect k >>= g') Γ (t :: ts) := by
  intro _ b Γ' rest hyields
  obtain ⟨a, Γ₁, rest₁, hexpect, -⟩ := hyields.exists_of_bind (moves_expect stepwise_grows k) hgrows
  obtain ⟨ha, hread⟩ := hexpect.of_ensures (ensures_expect hk _)
  have hta : t = a := hread.current_eq
  exact absurd (hta ▸ ha) ht

theorem tracks_expect_bind (hz : z.kind = .eof) {k : TokenKind} (hk : k ≠ .eof)
    {g g' : Token → Parser β} (hgrows : ∀ t, Moves State.Grows (g' t))
    (hidles : ∀ t, t.kind = .eof → Idles (g t))
    (h : ∀ t, t.kind = k → Tracks z us M N (g t) (g' t)) :
    Tracks z us (M + 1) N (expect k >>= g) (expect k >>= g') := by
  refine .of_cons hz ((moves_expect stepwise_grows k).bind stepwise_grows hgrows)
    (idles_expect_bind hk hidles) fun Γ t ts hts => ?_
  by_cases ht : t.kind = k
  · exact tracksAt_expect_bind ht ((h t ht).at_le Γ ts (by simpa using hts))
  · exact tracksAt_expect_bind_of_ne hk hgrows ht ts

theorem tracks_expect (hz : z.kind = .eof) {k : TokenKind} (hk : k ≠ .eof) :
    Tracks z us (M + 1) M (expect k) (expect k) := by
  have h : Tracks z us (M + 1) M (expect k >>= pure) (expect k >>= pure) :=
    tracks_expect_bind hz hk (fun t => moves_pure stepwise_grows t) (fun t _ => idles_pure t)
      fun t _ => tracks_pure t le_rfl
  simpa only [bind_pure] using h

theorem tracks_accept (hz : z.kind = .eof) {k : TokenKind} (hk : k ≠ .eof) :
    Tracks z us M M (accept k) (accept k) := by
  have hidles : Idles (accept k) := by
    have h := idles_accept_bind hk (idles_pure false)
    simpa only [bind_pure] using h
  refine .of_cons hz (moves_accept stepwise_grows k) hidles fun Γ t ts hts => ?_
  by_cases ht : t.kind = k
  · refine tracksAt_of_yields (List.suffix_cons t ts) ?_ (yields_accept ht _) (yields_accept ht _)
    rw [List.length_cons] at hts
    omega
  · exact tracksAt_of_yields List.suffix_rfl hts (yields_accept_of_ne ht) (yields_accept_of_ne ht)

theorem tracks_binderName (hz : z.kind = .eof) : Tracks z us (M + 1) M binderName binderName := by
  refine .of_cons hz (moves_binderName stepwise_grows) idles_binderName fun Γ t ts hts => ?_
  intro hsep x Γ' rest hyields
  obtain ⟨t', hread, ht', rfl⟩ := hyields.of_ensures (ensures_binderName _)
  obtain rfl : t = t' := hread.current_eq
  rw [List.length_cons, Nat.add_le_add_iff_right] at hts
  exact tracksAt_of_yields (List.suffix_cons t ts) hts (yields_binderName ht' _)
    (yields_binderName ht' _) hsep _ _ _ hyields

theorem tracksAt_intLiteral (t : Token) (negative : Bool) {ts : List Token} (hts : ts.length ≤ N) :
    TracksAt z us N (intLiteral t negative) (intLiteral t negative) Γ ts := by
  intro hsep n Γ' rest hyields
  obtain ⟨-, hn⟩ := hyields.of_ensures (ensures_intLiteral t negative _)
  exact tracksAt_of_yields List.suffix_rfl hts (yields_intLiteral hn _) (yields_intLiteral hn _)
    hsep _ _ _ hyields

theorem tracksAt_intLiteral_bind (t : Token) (negative : Bool) (g : Int64 → α) {ts : List Token}
    (hts : ts.length ≤ N) :
    TracksAt z us N (do return g (← intLiteral t negative)) (do return g (← intLiteral t negative)) Γ
      ts :=
  (tracksAt_intLiteral t negative hts).bind (moves_intLiteral stepwise_grows t negative)
    fun n => tracks_pure (g n) le_rfl

end Tracks

end FunLang.Parser
