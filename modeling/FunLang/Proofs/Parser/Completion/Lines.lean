import FunLang.Proofs.Parser.Complete.Programs
import FunLang.Proofs.Parser.Completion.Exprs
import FunLang.Proofs.Parser.Sound.Lines

set_option autoImplicit false

/-!
# Lines that can be completed

If all that is reported about a line is that the input ends, then some text makes a line of it
(`completesAt_line`). Declarations change the table of constructors, so that what is completed behind them
is a phrase for the table that they leave. A constructor whose fields are cut off is made known at once;
that its name is new follows from the messages, since a name that is known would be reported.
-/

namespace FunLang.Parser

open Grammar Lexer

variable {z : Token} {Γ : CtorTable} {ts : List Token}

/-! ## Declarations -/

theorem completable_constructors (Γ : CtorTable) :
    Completable (fun ts => ∀ type, ∃ cs Γ', AreConstructors type Γ ts cs Γ') [] := by
  refine (completable_name Γ).mono ?_
  rintro _ ⟨x, h, hx⟩ type
  rw [h]
  exact ⟨_, _, .one hx .nil⟩

/-- A constructor of a known name is reported. -/
theorem mem_diags_declare {s : State} {c : Constructor} (hc : (s.ctors.find? c.name).isSome = true) :
    ∃ d ∈ ((declare c).run s).2.diags, d.message = s!"constructor '{c.name}' is already declared" := by
  refine ⟨(Diagnostic.error c.pos s!"constructor '{c.name}' is already declared").withHint
    "constructor names must be unique across all data declarations", ?_, rfl⟩
  show _ ∈ ((if (s.ctors.find? c.name).isSome then _ else _ : Parser Unit).run s).2.diags
  rw [if_pos hc]
  exact List.mem_append_right s.diags List.mem_cons_self

variable (hz : z.kind = .eof)
include hz

theorem completesAt_constructors (type : String) : ∀ (n M : Nat), 8 * M + 1 ≤ n →
    ∀ {Γ : CtorTable} {ts : List Token}, ts.length < M → Ordinary ts →
      CompletesAt z (constructors n type) (fun us => ∃ cs Γ', AreConstructors type Γ us cs Γ') Γ ts
  | n + 1, M + 1, hn, Γ, ts, hlen, hts => by
      have htypes := completes_atomicTypes hz n M (by omega)
      have hafter (c : Constructor) : Moves State.Grows (do
          if ← accept .bar then return (← constructors n type).map (c :: ·) else return some [c]) := by
        refine (moves_accept stepwise_grows _).bind stepwise_grows fun b => ?_
        split
        · exact (moves_constructors stepwise_grows State.grows_insert type n).bind stepwise_grows
            fun _ => moves_pure stepwise_grows _
        · exact moves_pure stepwise_grows _
      have hdeclare (c : Constructor) :=
        (moves_declare stepwise_grows State.grows_insert c).bind stepwise_grows fun _ => hafter c
      rw [constructors]
      refine completesAt_expect_cases (fun x => ?_) (by simp) hts ?_ ?_
      · split
        · exact moves_pure stepwise_grows _
        · exact htypes.grows.bind stepwise_grows fun _ => hdeclare _
      · rintro rfl
        exact (completable_constructors Γ).mono fun us h => h type
      rintro x ts rfl hx
      rw [if_neg (by simp [hx])]
      have hlen : ts.length < M := by simpa using hlen
      by_cases hc : Γ.find? x.text = none
      · refine CompletesAt.bind htypes.grows (fun _ => hdeclare _) ?_ ?_
        · -- the input ends among the fields, and with them the last constructor is complete
          intro hend hdiags
          refine (htypes.at_lt hlen hts.tail hend hdiags).mono ?_
          rintro us ⟨fields, hfields⟩
          exact ⟨_, _, .one ⟨hx, hc⟩ hfields⟩
        · intro fields Γ' rest hfirst hend hdiags
          obtain ⟨rfl, us, ws, rfl, rfl, hfields⟩ :=
            hfirst.exists_append hz (ensures_atomicTypes n _) (by omega)
          rw [(yields_declare hc (ws ++ [z])).run_bind] at hend hdiags
          refine Completable.mono (completesAt_accept_bind (k := .bar)
            (L := fun vs => ∃ cs Γ'', AreConstructors type Γ' (x :: (us ++ vs)) cs Γ'') hz (by simp)
            ?_ ?_ hend hdiags) fun vs hvs => by rwa [List.append_assoc]
          · exact completesAt_of_yields (yields_pure _ _)
          · rintro b ws rfl hb hend hdiags
            simp only [List.length_append, List.length_cons] at hlen
            refine (completesAt_constructors type n M (by omega) (by omega)
              hts.tail.of_append_right.tail hend hdiags).mono ?_
            rintro vs ⟨cs, Γ'', hcs⟩
            exact ⟨_, Γ'', .cons ⟨hx, hc⟩ hfields hb hcs⟩
      · -- the name is known, also behind the fields
        refine fun hend _ => absurd ?_ (hts x List.mem_cons_self).2
        have hctors := moves_atomicTypes stepwise_ctors n (.before Γ (ts ++ [z]))
        obtain ⟨d, hd, hm⟩ := mem_diags_declare (c := ⟨x.text, _, type, x.pos⟩)
          (s := ((atomicTypes n).run (.before Γ (ts ++ [z]))).2) (by
            rw [hctors]
            exact Option.isSome_iff_ne_none.mpr hc)
        refine (mentionsEnd_alreadyDeclared_iff x.text).mp (hm ▸ hend d ?_)
        exact (hafter _ _).diags.subset hd

theorem completesAt_dataDecl (n M : Nat) (hn : 8 * M + 1 ≤ n) {t : Token} (ht : t.kind = .kwData)
    (hlen : ts.length < M) (hts : Ordinary (t :: ts)) :
    CompletesAt z (dataDecl n) (fun us => ∃ d Γ', IsData Γ us d Γ') Γ (t :: ts) := by
  have hsemicolon := completable_symbol ";" .semicolon (by decide)
  have hbody := (completable_symbol "=" .assign (by decide)).append
    ((completable_constructors Γ).append hsemicolon)
  have hsynchronize : Moves State.Grows (do synchronize n; return (none : Option DataDecl)) :=
    (moves_synchronize stepwise_grows n).bind stepwise_grows fun _ => moves_pure stepwise_grows _
  have hconstructors (x : Token) := (moves_constructors stepwise_grows State.grows_insert x.text n).bind
    stepwise_grows (moves_declared stepwise_grows n x t)
  unfold dataDecl
  refine completesAt_expect_bind ht ?_ fun _ => id
  refine completesAt_expect_cases (fun x => ?_) (by simp) hts.tail ?_ ?_
  · split
    · exact hsynchronize
    · exact (moves_expect stepwise_grows _).bind stepwise_grows fun _ => hconstructors x
  -- the input may end before the name, before the equals sign, among the constructors or behind them
  · rintro rfl
    refine ((completable_name Γ).append hbody).mono ?_
    rintro _ ⟨_, _, h, ⟨x, rfl, hx⟩, _, _, rfl, ⟨a, rfl, ha⟩, us, _, rfl, hcs, e, rfl, he⟩
    obtain ⟨cs, Γ', hcs⟩ := hcs x.text
    rw [h]
    exact ⟨_, Γ', .mk ht hx.1 ha hcs he⟩
  rintro x ts rfl hx
  rw [if_neg (by simp [hx])]
  refine completesAt_expect_cases (fun _ => hconstructors x) (by simp) hts.tail.tail ?_ ?_
  · rintro rfl
    refine hbody.mono ?_
    rintro _ ⟨_, _, h, ⟨a, rfl, ha⟩, us, _, rfl, hcs, e, rfl, he⟩
    obtain ⟨cs, Γ', hcs⟩ := hcs x.text
    rw [h]
    exact ⟨_, Γ', .mk ht hx ha hcs he⟩
  rintro a ts rfl ha
  simp only [List.length_cons] at hlen
  have hcs := completesAt_constructors (Γ := Γ) hz x.text n M hn (by omega) hts.tail.tail.tail
  refine CompletesAt.bind (moves_constructors stepwise_grows State.grows_insert x.text n)
    (moves_declared stepwise_grows n x t) ?_ ?_
  · intro hend hdiags
    refine ((hcs hend hdiags).append hsemicolon).mono ?_
    rintro _ ⟨us, _, h, ⟨cs, Γ', hcs⟩, e, rfl, he⟩
    rw [h]
    exact ⟨_, Γ', .mk ht hx ha hcs he⟩
  · intro cs Γ' rest hfirst hend hdiags
    obtain ⟨cs, us, rfl, hpasses, hdeclares, hcs⟩ :=
      hfirst.of_ensures (ensures_constructors x.text n _) (by rw [State.length_before]; omega)
    obtain ⟨ws, rfl, rfl⟩ := hpasses.exists_append hz
    have hend' := completesAt_expect (z := z) (Γ := Γ') (L := IsKind .semicolon)
      hts.tail.tail.tail.of_append_right .semicolon (fun _ => hsemicolon) hend hdiags
    refine hend'.mono ?_
    rintro vs ⟨e, h, he⟩
    rw [List.append_assoc, h]
    exact ⟨_, Γ', .mk ht hx ha (hcs (hdeclares.not_repeats rfl)) he⟩

theorem completesAt_dataDecls : ∀ (n M : Nat), 8 * M + 2 ≤ n →
    ∀ {Γ : CtorTable} {ts : List Token}, ts.length < M → Ordinary ts →
      CompletesAt z (dataDecls n) (fun us => ∃ ds Γ', AreData Γ us ds Γ') Γ ts
  | n + 1, M, _, Γ, [], _, _ => fun _ _ => completable_self ⟨[], Γ, .nil⟩
  | n + 1, M + 1, hn, Γ, t :: ts, hlen, hts => by
      have hlen : ts.length < M := by simpa using hlen
      rw [dataDecls]
      show CompletesAt z (if (t.kind == .kwData) = true then _ else pure []) _ Γ (t :: ts)
      by_cases ht : t.kind = .kwData
      · rw [if_pos (by simpa using ht)]
        refine CompletesAt.bind (moves_dataDecl stepwise_grows State.grows_insert n) (fun d => ?_) ?_ ?_
        · exact (moves_dataDecls stepwise_grows State.grows_insert n).bind stepwise_grows fun ds =>
            moves_pure stepwise_grows _
        · intro hend hdiags
          refine (completesAt_dataDecl hz n M (by omega) ht hlen hts hend hdiags).mono ?_
          rintro us ⟨d, Γ', hd⟩
          have hds := AreData.cons hd .nil
          rw [List.append_nil] at hds
          exact ⟨_, Γ', hds⟩
        · intro d Γ' rest hfirst hend hdiags
          obtain ⟨d, us, rfl, hpos, hpasses, hdeclares, hd⟩ :=
            hfirst.of_ensures (ensures_dataDecl n _) (by rw [State.length_before]; omega)
          obtain ⟨ws, hws, rfl⟩ := hpasses.exists_append hz
          have hlen' := congrArg List.length hws
          simp only [List.length_append, List.length_cons] at hlen'
          rw [hws] at hts ⊢
          refine (completesAt_dataDecls n M (by omega) (by omega) hts.of_append_right hend hdiags).mono ?_
          rintro vs ⟨ds, Γ'', hds⟩
          rw [List.append_assoc]
          exact ⟨_, Γ'', .cons (hd (hdeclares.not_repeats rfl)) hds⟩
      · rw [if_neg (by simpa using ht)]
        exact completesAt_of_yields (yields_pure _ _)

/-! ## Lines -/

/-- What stands too much at the end of a line is not the end of the input. -/
theorem completesAt_finish (hts : Ordinary ts) {L : List Token → Prop} : CompletesAt z finish L Γ ts := by
  have hrest (us : List Token) (hus : Ordinary us) {L : List Token → Prop} : CompletesAt z (do
      let t ← current
      if t.kind ≠ .eof then complain t s!"unexpected {t.describe} after expression") L Γ us := by
    cases us with
    | nil =>
        show CompletesAt z (if z.kind ≠ .eof then _ else pure ()) L Γ []
        rw [if_neg (by simpa using hz)]
        exact completesAt_of_yields (yields_pure _ _)
    | cons t us =>
        refine completesAt_current_bind ?_
        rw [if_pos (hus t List.mem_cons_self).1]
        refine completesAt_of_mem (mem_diags_complain t _ Γ _) fun hm => ?_
        exact absurd ((mentionsEnd_afterExpression_iff t).mp hm) hus.not_mentionsEnd
  unfold finish
  refine completesAt_accept_bind hz (by simp) (hrest ts hts) ?_
  rintro t us rfl _
  exact hrest us hts.tail

/-- If something is missing then in what stands before the end of a line. -/
theorem completesAt_finish_bind {α β : Type} {p : Parser α} {f : α → Parser β}
    (hf : ∀ a, ∃ b, f a = (do finish; return b)) {L : List Token → Prop} (hgrows : Moves State.Grows p)
    (hp : CompletesAt z p L Γ ts)
    (hreads : ∀ a Γ' rest, Yields p (.before Γ (ts ++ [z])) a (.before Γ' rest) →
      ∃ us ws, ts = us ++ ws ∧ rest = ws ++ [z]) (hts : Ordinary ts) :
    CompletesAt z (p >>= f) L Γ ts := by
  refine CompletesAt.bind hgrows (fun a => ?_) hp ?_
  · obtain ⟨b, hb⟩ := hf a
    rw [hb]
    exact (moves_finish stepwise_grows).bind stepwise_grows fun _ => moves_pure stepwise_grows _
  · intro a Γ' rest hfirst hend hdiags
    obtain ⟨b, hb⟩ := hf a
    rw [hb] at hend hdiags
    obtain ⟨us, ws, rfl, rfl⟩ := hreads a Γ' rest hfirst
    have hnothing : Completable (fun _ => False) ws :=
      completesAt_finish hz (Γ := Γ') hts.of_append_right hend hdiags
    exact hnothing.mono fun _ => False.elim

theorem completesAt_definition (n M : Nat) (hn : 8 * M + 4 ≤ n) {t : Token} (ht : t.kind = .kwLet)
    (hlen : ts.length < M) (hts : Ordinary (t :: ts)) :
    CompletesAt z (definition n) (fun us => ∃ name e, IsEntry Γ false us name e) Γ (t :: ts) := by
  have hexpr := completes_expr hz n M hn
  have hrest := (completes_binderName hz).keep.bind fun name =>
    (completes_symbol hz "=" .assign (by decide)).keep.bind fun _ => hexpr.bind fun bound =>
      show Completes z M M (do
          let k := (← current).kind
          if k = .eof ∨ k = .semicolon then return (some name, bound)
          else
            let _ ← expect .kwIn
            let body ← expr n
            return (none, .letIn t.pos name bound body))
        fun Γ us => us = [] ∨ Concat (IsKind .kwIn) (fun us => ∃ e o, IsExpr Γ false us e o) us by
      refine completes_current_bind fun u => ?_
      dsimp only
      split
      · exact (completes_pure _).mono fun _ _ => Or.inl
      · exact ((completes_keyword hz "in" .kwIn (by decide)).keep.bind fun _ =>
          hexpr.map fun body => (none, Expr.letIn t.pos name bound body)).mono fun _ _ => Or.inr
  unfold definition
  refine completesAt_expect_bind ht (hrest.at_lt hlen hts.tail) ?_
  rintro _ ⟨_, _, rfl, ⟨x, rfl, hx⟩, _, _, rfl, ⟨a, rfl, ha⟩, us, _, rfl, ⟨bound, o, hbound⟩,
    rfl | ⟨_, vs, rfl, ⟨i, rfl, hi⟩, body, o', hbody⟩⟩
  · rw [List.append_nil]
    exact ⟨_, _, .define ht hx ha hbound⟩
  · exact ⟨_, _, .expr (.letIn ht hx ha hbound hi hbody)⟩

/-- Behind its data a line holds an entry or nothing. -/
theorem completesAt_content (n M : Nat) (hn : 8 * M + 4 ≤ n) (data : List DataDecl) (hlen : ts.length < M)
    (hts : Ordinary ts) :
    CompletesAt z (do
      match (← current).kind with
      | .eof => return Line.mk data none .missing
      | .kwLet =>
        let (name, e) ← definition n
        finish
        return ⟨data, name, e⟩
      | _ =>
        let e ← expr n
        finish
        return ⟨data, none, e⟩) (fun us => ∃ name e, IsContent Γ false us name e) Γ ts := by
  cases ts with
  | nil => exact fun _ _ => completable_self ⟨none, .missing, .missing⟩
  | cons t ts =>
      have hexpr := completes_expr hz n M hn
      have hlen' : ts.length < M := Nat.lt_of_succ_lt hlen
      refine completesAt_current_bind ?_
      cases hk : t.kind with
      | eof => exact absurd hk (hts t List.mem_cons_self).1
      | kwLet =>
          refine completesAt_finish_bind hz (fun _ => ⟨_, rfl⟩) (moves_definition stepwise_grows n) ?_ ?_
            hts
          · intro hend hdiags
            refine (completesAt_definition hz n M hn hk hlen' hts hend hdiags).mono ?_
            rintro us ⟨name, e, he⟩
            exact ⟨name, e, .entry he⟩
          · intro r Γ' rest hfirst
            obtain ⟨-, us, ws, hus, hws, -⟩ :=
              hfirst.exists_append hz (ensures_definition false n _) (by omega)
            exact ⟨us, ws, hus, hws⟩
      | _ =>
          refine completesAt_finish_bind hz (fun _ => ⟨_, rfl⟩) hexpr.grows ?_ ?_ hts
          · intro hend hdiags
            refine (hexpr.at_lt hlen hts hend hdiags).mono ?_
            rintro us ⟨e, o, he⟩
            exact ⟨none, e, .entry (.expr he)⟩
          · intro e Γ' rest hfirst
            obtain ⟨-, us, ws, hus, hws, -⟩ := hexpr.reads hlen hfirst
            exact ⟨us, ws, hus, hws⟩

/-- A line about which only its end is reported can be gone on with. -/
theorem completesAt_line (n M : Nat) (hn : 8 * M + 4 ≤ n) (hlen : ts.length < M) (hts : Ordinary ts) :
    CompletesAt z (line n) (fun us => ∀ y : Token, y.kind = .eof → ∃ l, IsLine Γ false (us ++ [y]) l)
      Γ ts := by
  unfold line
  refine CompletesAt.bind (moves_dataDecls stepwise_grows State.grows_insert n) (fun data => ?_) ?_ ?_
  · have hfinish (l : Line) : Moves State.Grows (do finish; return l) :=
      (moves_finish stepwise_grows).bind stepwise_grows fun _ => moves_pure stepwise_grows l
    refine moves_current_bind fun t => ?_
    split
    · exact moves_pure stepwise_grows _
    · exact (moves_definition stepwise_grows n).bind stepwise_grows fun r => hfinish ⟨data, r.1, r.2⟩
    · exact (moves_expr stepwise_grows n).bind stepwise_grows fun e => hfinish ⟨data, none, e⟩
  · intro hend hdiags
    refine (completesAt_dataDecls hz n M (by omega) hlen hts hend hdiags).mono ?_
    rintro us ⟨ds, Γ', hds⟩ y hy
    exact ⟨_, .mk hds .missing hy⟩
  · intro data Γ' rest hfirst hend hdiags
    obtain ⟨us, hpasses, hdeclares, hds⟩ :=
      hfirst.of_ensures (ensures_dataDecls n _) (by rw [State.length_before]; omega)
    obtain ⟨ws, rfl, rfl⟩ := hpasses.exists_append hz
    rw [List.length_append] at hlen
    have hcontent := completesAt_content (Γ := Γ') hz n M hn data (by omega) hts.of_append_right hend hdiags
    refine hcontent.mono ?_
    rintro vs ⟨name, e, he⟩ y hy
    rw [List.append_assoc, List.append_assoc, ← List.append_assoc ws]
    exact ⟨_, .mk (hds (hdeclares.not_repeats rfl)) he hy⟩

end FunLang.Parser
