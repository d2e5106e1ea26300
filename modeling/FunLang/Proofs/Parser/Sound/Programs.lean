import FunLang.Proofs.Parser.Sound.Exprs

set_option autoImplicit false

/-!
# Programs that are read without a complaint

The declarations of a program add to the table of constructors, so that the tables before and after
them take part in what is said about them. A constructor whose name is known already is reported, but
is read all the same, and it is the only thing that is reported without a complaint.
-/

namespace FunLang.Parser

open Grammar

variable {T : Tolerance}

/-! ## Imports -/

/-- Every string among the tokens is in quotes. -/
def Quoted (ts : List Token) : Prop :=
  ∀ t ∈ ts, t.kind = .stringLit → ∃ path, t.literal = 0x22 :: (path ++ [0x22])

theorem stripQuotes_quoted (path : List UInt8) : stripQuotes (0x22 :: (path ++ [0x22])) = path := by
  have hlast : (0x22 :: (path ++ [0x22]) : List UInt8).getLast? = some 0x22 := by
    rw [← List.cons_append, List.getLast?_concat]
  unfold stripQuotes
  simp [hlast]

theorem ensures_importDecl (s : State) : Ensures T importDecl s fun i s' =>
    Quoted s.rest → ∃ ts, Reads s ts s' ∧ IsImport ts i := by
  unfold importDecl
  refine (ensures_expect (by simp) s).bind fun i s₁ => ?_
  refine (ensures_expect (by simp) s₁).bind fun p s₂ => ?_
  refine (ensures_expect (by simp) s₂).bind fun e s₃ => ensures_pure ?_
  rintro ⟨he, hre⟩ ⟨hp, hrp⟩ ⟨hi, hri⟩ hquoted
  obtain ⟨path, hpath⟩ := hquoted p (by simp [hri.rest, hrp.rest]) hp
  refine ⟨_, hri.trans (hrp.trans hre), ?_⟩
  rw [hpath, stripQuotes_quoted]
  exact .mk hi hp hpath he

theorem ensures_importDecls (n : Nat) (s : State) : Ensures T (importDecls n) s fun is s' =>
    Quoted s.rest → Phrase n 1 s s' fun _ ts => AreImports ts is := by
  induction n generalizing s with
  | zero => exact ensures_pure fun _ h => absurd h (by omega)
  | succ n ih =>
      rw [importDecls]
      refine ensures_check_bind ?_
      split
      · refine (ensures_importDecl s).bind fun i s₁ => ?_
        refine (ih s₁).bind fun is s₂ => ensures_pure ?_
        intro his hi hquoted hn
        obtain ⟨ts, hts, hi⟩ := hi hquoted
        have hquoted' : Quoted s₁.rest := fun t ht => hquoted t (by simp [hts.rest, ht])
        obtain ⟨us, hus, his⟩ := (his hquoted').after hts (by cases hi; simp) hn (by simp)
        exact ⟨_, hus, .cons hi his⟩
      · exact ensures_pure fun _ _ => ⟨[], .refl s, .nil⟩

/-! ## Data declarations -/

theorem ensures_synchronize (n : Nat) (s : State) : Ensures T (synchronize n) s fun _ _ => True := by
  induction n generalizing s with
  | zero => exact ensures_pure trivial
  | succ n ih =>
      rw [synchronize]
      refine ensures_current_bind ?_
      split
      · exact ensures_pure trivial
      · exact ensures_pure trivial
      · exact ensures_pure trivial
      · exact (ensures_advance s).bind fun _ _ => ensures_pure fun _ => trivial
      · exact (ensures_advance s).bind fun _ s₁ => (ih s₁).mono fun _ _ _ _ => trivial

/-- Whether one of the constructors that are made known one after the other has a name that is known
by then. -/
def Repeats (Γ : CtorTable) : List Constructor → Prop
  | [] => False
  | c :: cs => (Γ.find? c.name).isSome ∨ Repeats (Γ.insert c) cs

theorem repeats_append_iff {Γ : CtorTable} {cs ds : List Constructor} :
    Repeats Γ (cs ++ ds) ↔ Repeats Γ cs ∨ Repeats (cs.reverse ++ Γ) ds := by
  induction cs generalizing Γ with
  | nil => simp [Repeats]
  | cons c cs ih => simp [Repeats, ih, CtorTable.insert, or_assoc]

/-- Between two states some constructors are made known. A message is added exactly if a name is
repeated. -/
structure Declares (s : State) (cs : List Constructor) (s' : State) : Prop where
  ctors : s'.ctors = cs.reverse ++ s.ctors
  diags : ∃ new, s'.diags = s.diags ++ new ∧ (new = [] ↔ ¬ Repeats s.ctors cs)

theorem Reads.declares {s s' : State} {ts : List Token} (h : Reads s ts s') : Declares s [] s' :=
  ⟨h.ctors, [], by simp [h.diags], by simp [Repeats]⟩

theorem Declares.trans {s s₁ s₂ : State} {cs ds : List Constructor} (h : Declares s cs s₁)
    (h' : Declares s₁ ds s₂) : Declares s (cs ++ ds) s₂ := by
  obtain ⟨new, hdiags, hnew⟩ := h.diags
  obtain ⟨new', hdiags', hnew'⟩ := h'.diags
  refine ⟨by simp [h'.ctors, h.ctors], new ++ new', by simp [hdiags', hdiags], ?_⟩
  rw [List.append_eq_nil_iff, hnew, hnew', repeats_append_iff, h.ctors, not_or]

/-- Without a message no name is repeated. -/
theorem Declares.not_repeats {s s' : State} {cs : List Constructor} (h : Declares s cs s')
    (hdiags : s'.diags = s.diags) : ¬ Repeats s.ctors cs := by
  obtain ⟨new, hnew, hiff⟩ := h.diags
  exact hiff.mp (by simpa [hdiags] using hnew)

theorem ensures_declare (c : Constructor) (s : State) : Ensures T (declare c) s fun _ s' =>
    Passes s [] s' ∧ Declares s [c] s' := by
  unfold declare
  refine ensures_ctor?_bind ?_
  have hmodify (s : State) : Ensures T (modify fun s => { s with ctors := s.ctors.insert c }) s
      fun _ s' => s' = { s with ctors := s.ctors.insert c } :=
    fun hs => ⟨⟨hs.reported, hs.errors⟩, fun hd => ⟨hd, rfl⟩⟩
  split
  · rename_i hc
    refine (ensures_report rfl s).bind fun _ s₁ => (hmodify s₁).mono fun _ s' hs' => ?_
    rintro ⟨-, rfl⟩
    subst hs'
    exact ⟨⟨rfl, by simp⟩, rfl, [_], rfl, by simp [Repeats, hc]⟩
  · rename_i hc
    refine (hmodify s).mono fun _ s' hs' => ?_
    subst hs'
    exact ⟨⟨rfl, by simp⟩, rfl, [], by simp, by simpa [Repeats] using hc⟩

theorem ensures_constructors (type : String) (n : Nat) (s : State) :
    Ensures T (constructors n type) s fun r s' => 8 * s.rest.length + 1 ≤ n →
      ∃ cs ts, r = some cs ∧ Passes s ts s' ∧ Declares s cs s' ∧
        (¬ Repeats s.ctors cs → AreConstructors type s.ctors ts cs s'.ctors) := by
  induction n generalizing s with
  | zero => exact ensures_pure fun h => absurd h (by omega)
  | succ n ih =>
      rw [constructors]
      refine (ensures_expect (by simp) s).bind fun x s₁ => ?_
      split
      · rename_i hk
        exact ensures_pure fun hx => absurd hx.1 hk
      · refine (ensures_atomicTypes n s₁).bind fun fields s₂ => ?_
        refine (ensures_declare _ s₂).bind fun _ s₃ => ?_
        refine (ensures_accept (by simp) s₃).bind fun b s₄ => ?_
        split
        · rename_i hb
          refine (ih s₄).bind fun r s₅ => ensures_pure ?_
          rintro hcs hbar ⟨hpass, hdeclare⟩ hfields ⟨hx, hrx⟩ hn
          obtain ⟨bar, hbar, hrb⟩ := by simpa [hb] using hbar
          obtain ⟨ts, hts, hfields⟩ := hfields.after hrx (by simp) hn (by simp)
          have hread := (hts.toPasses.trans hpass).trans hrb.toPasses
          have hlen := hread.length
          obtain ⟨cs, us, rfl, hus, hdeclares, hcs⟩ := hcs (by simp at hlen; omega)
          have hfirst := (hts.declares.trans hdeclare).trans hrb.declares
          refine ⟨_, _, rfl, by simpa using hread.trans hus, by simpa using hfirst.trans hdeclares, ?_⟩
          intro hrepeats
          obtain ⟨hnew, hrest⟩ := not_or.mp hrepeats
          -- the constructors after this one are read with it in the table
          have hctors : s₄.ctors = s.ctors.insert ⟨x.text, fields, type, x.pos⟩ := hfirst.ctors
          rw [hctors] at hcs
          exact .cons ⟨hx, by simpa using hnew⟩ hfields hbar (hcs hrest)
        · rename_i hb
          refine ensures_pure ?_
          rintro hbar ⟨hpass, hdeclare⟩ hfields ⟨hx, hrx⟩ hn
          obtain ⟨-, rfl⟩ := by simpa [hb] using hbar
          obtain ⟨ts, hts, hfields⟩ := hfields.after hrx (by simp) hn (by simp)
          have hfirst : Declares s [⟨x.text, fields, type, x.pos⟩] s₄ := hts.declares.trans hdeclare
          refine ⟨_, _, rfl, by simpa using hts.toPasses.trans hpass, hfirst, ?_⟩
          intro hrepeats
          have hctors : s₄.ctors = s.ctors.insert ⟨x.text, fields, type, x.pos⟩ := hfirst.ctors
          rw [hctors]
          exact .one ⟨hx, by simpa using (not_or.mp hrepeats).1⟩ hfields

theorem ensures_dataDecl (n : Nat) (s : State) : Ensures T (dataDecl n) s fun r s' =>
    8 * s.rest.length + 1 ≤ n →
      ∃ d ts, r = some d ∧ 0 < ts.length ∧ Passes s ts s' ∧ Declares s d.ctors s' ∧
        (¬ Repeats s.ctors d.ctors → IsData s.ctors ts d s'.ctors) := by
  unfold dataDecl
  refine (ensures_expect (by simp) s).bind fun d s₁ => ?_
  refine (ensures_expect (by simp) s₁).bind fun x s₂ => ?_
  split
  · rename_i hk
    exact (ensures_synchronize n s₂).bind fun _ s₃ => ensures_pure fun _ hx => absurd hx.1 hk
  · refine (ensures_expect (by simp) s₂).bind fun a s₃ => ?_
    refine (ensures_constructors x.text n s₃).bind fun r s₄ => ?_
    cases r with
    | none =>
        -- a list of constructors that breaks off has been complained about
        refine (ensures_synchronize n s₄).bind fun _ s₅ => ensures_pure ?_
        rintro - hcs ⟨ha, hra⟩ ⟨hx, hrx⟩ ⟨hd, hrd⟩ hn
        have hlen := (hrd.trans (hrx.trans hra)).length
        obtain ⟨cs, ts, hnone, -⟩ := hcs (by simp at hlen; omega)
        simp at hnone
    | some cs =>
        refine (ensures_expect (by simp) s₄).bind fun e s₅ => ensures_pure ?_
        rintro ⟨he, hre⟩ hcs ⟨ha, hra⟩ ⟨hx, hrx⟩ ⟨hd, hrd⟩ hn
        have hread := hrd.trans (hrx.trans hra)
        have hlen := hread.length
        obtain ⟨cs', ts, hcs', hts, hdeclares, hcs⟩ := hcs (by simp at hlen; omega)
        obtain rfl := Option.some.inj hcs'
        refine ⟨_, _, rfl, by simp, hread.toPasses.trans (hts.trans hre.toPasses),
          by simpa using (hread.declares.trans hdeclares).trans hre.declares, fun hrepeats => ?_⟩
        rw [hread.ctors] at hcs
        rw [hre.ctors]
        exact .mk hd hx ha (hcs hrepeats) he

theorem ensures_dataDecls (n : Nat) (s : State) : Ensures T (dataDecls n) s fun ds s' =>
    8 * s.rest.length + 2 ≤ n →
      ∃ ts, Passes s ts s' ∧ Declares s (ds.flatMap (·.ctors)) s' ∧
        (¬ Repeats s.ctors (ds.flatMap (·.ctors)) → AreData s.ctors ts ds s'.ctors) := by
  induction n generalizing s with
  | zero => exact ensures_pure fun h => absurd h (by omega)
  | succ n ih =>
      rw [dataDecls]
      refine ensures_check_bind ?_
      split
      · refine (ensures_dataDecl n s).bind fun r s₁ => ?_
        refine (ih s₁).bind fun ds s₂ => ensures_pure ?_
        intro hds hd hn
        obtain ⟨d, ts, rfl, hpos, hts, hdeclares, hd⟩ := hd (by omega)
        have hlen := hts.length
        obtain ⟨us, hus, hdeclares', hds⟩ := hds (by omega)
        refine ⟨_, hts.trans hus, hdeclares.trans hdeclares', fun hrepeats => ?_⟩
        obtain ⟨hfirst, hrest⟩ := not_or.mp (mt repeats_append_iff.mpr hrepeats)
        rw [← hdeclares.ctors] at hrest
        exact .cons (hd hfirst) (hds hrest)
      · exact ensures_pure fun _ => ⟨[], .refl s, (Reads.refl s).declares, fun _ => .nil⟩

/-! ## Programs -/

theorem ensures_finish (s : State) : Ensures T finish s fun _ s' => s'.current.kind = .eof ∧
    ((∃ t, t.kind = .semicolon ∧ Reads s [t] s') ∨ s' = s) := by
  unfold finish
  refine (ensures_accept (by simp) s).bind fun b s₁ => ensures_current_bind ?_
  split
  · exact (ensures_complain _ (by simp [IsComplaint, toString]) s₁).mono fun _ _ => False.elim
  · rename_i heof
    refine ensures_pure ?_
    rintro (⟨-, hsemi⟩ | ⟨-, -, rfl⟩)
    · exact ⟨by simpa using heof, Or.inl hsemi⟩
    · exact ⟨by simpa using heof, Or.inr rfl⟩

/-- A program that is read without a complaint has been read up to the end of the input. Its body is read
with the table in which all its constructors are known. -/
theorem ensures_program (innermost : Bool) (n : Nat) (s : State) :
    Ensures T (program n) s fun p s' => 8 * s.rest.length + 4 ≤ n → Quoted s.rest →
      ∃ ts us vs, Passes s (ts ++ (us ++ vs)) s' ∧ AreImports ts p.imports ∧ Declares s p.ctors s' ∧
        (¬ Repeats s.ctors p.ctors → AreData s.ctors us p.data s'.ctors) ∧
        IsBody s'.ctors innermost vs p.body ∧ s'.current.kind = .eof := by
  unfold program
  refine (ensures_importDecls n s).bind fun is s₁ => ?_
  refine (ensures_dataDecls n s₁).bind fun ds s₂ => ensures_current_bind ?_
  split
  · exact (ensures_complain _ (by simp [IsComplaint]) s₂).bind fun _ _ => ensures_pure False.elim
  · split
    · rename_i heof
      refine ensures_pure ?_
      intro hds his hn hquoted
      obtain ⟨ts, hts, his⟩ := his hquoted (by omega)
      have hlen := hts.length
      obtain ⟨us, hus, hdeclares, hds⟩ := hds (by omega)
      rw [hts.ctors] at hds
      exact ⟨ts, us, [], by simpa using hts.toPasses.trans hus, his, hts.declares.trans hdeclares,
        hds, .missing, heof⟩
    · refine (ensures_expr innermost n s₂).bind fun e s₃ => ?_
      refine (ensures_finish s₃).bind fun _ s₄ => ensures_pure ?_
      intro hfinish he hds his hn hquoted
      obtain ⟨ts, hts, his⟩ := his hquoted (by omega)
      have hlen := hts.length
      obtain ⟨us, hus, hdeclares, hds⟩ := hds (by omega)
      have hlen' := hus.length
      obtain ⟨vs, hvs, o, hexpr, -⟩ := he (by omega)
      rw [hts.ctors] at hds
      have hread := hts.toPasses.trans (hus.trans hvs.toPasses)
      have hdeclares := (hts.declares.trans hdeclares).trans hvs.declares
      rw [← hvs.ctors] at hds hexpr
      rcases hfinish with ⟨heof, ⟨t, ht, hrt⟩ | rfl⟩
      · rw [← hrt.ctors] at hds hexpr
        exact ⟨ts, us, vs ++ [t], by simpa using hread.trans hrt.toPasses, his,
          by simpa [Program.ctors] using hdeclares.trans hrt.declares, hds, .terminated hexpr ht, heof⟩
      · exact ⟨ts, us, vs, hread, his, by simpa [Program.ctors] using hdeclares, hds, .expr hexpr, heof⟩

end FunLang.Parser
