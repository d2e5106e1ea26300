import FunLang.Proofs.Parser.Complete.Programs
import FunLang.Proofs.Parser.Cut.Exprs

set_option autoImplicit false

/-!
# Lines that are cut off

A line that is cut off is read like the whole line or up to the end of the input, and then no message is
about anything but that end (`tracks_line`). Declarations need some care: the fields of a constructor may
be cut off, and the constructor is then made known all the same. Its name is new, since in the whole line
it is.
-/

namespace FunLang.Parser

open Grammar

variable {z : Token} {us : List Token}

/-! ## Declarations -/

/-- A constructor of a new name is made known without a message. -/
theorem State.Exhausted.declare {s : State} (h : s.Exhausted) {c : Constructor}
    (hc : s.ctors.find? c.name = none) : ((declare c).run s).2.Exhausted := by
  have hrun : (Parser.declare c).run s = ((), { s with ctors := s.ctors.insert c }) := by
    show (if (s.ctors.find? c.name).isSome then _ else _ : Parser Unit).run s = _
    rw [hc]
    rfl
  rw [hrun]
  exact ⟨h.tail, h.current, h.messages⟩

/-- Only a constructor of a new name is made known without a message. -/
theorem Yields.find?_of_declare {Γ Γ' : CtorTable} {ts rest : List Token} {c : Constructor} {u : Unit}
    (h : Yields (declare c) (.before Γ ts) u (.before Γ' rest)) : Γ.find? c.name = none := by
  obtain ⟨-, hdeclares⟩ := h.of_ensures (ensures_declare c _)
  simpa [Repeats, State.before] using hdeclares.not_repeats rfl

/-- A constructor is made known also if what is read before that is cut off. The name is new in the whole
input, and so it is here. -/
theorem tracksAt_declare {α β : Type} {M N K : Nat} {p p' : Parser α} (hp : Tracks z us M N p p')
    (hctors : Moves (fun s s' => s'.ctors = s.ctors) p)
    (hctors' : Moves (fun s s' => s'.ctors = s.ctors) p') {c : α → Constructor} {name : String}
    (hname : ∀ a, (c a).name = name) {g g' : α → Parser β} (hg : ∀ a, Tracks z us N K (g a) (g' a))
    {Γ : CtorTable} {ts : List Token} (hts : ts.length ≤ M) :
    TracksAt z us K (do let a ← p; declare (c a); g a) (do let a ← p'; declare (c a); g' a) Γ ts := by
  have hdeclares (a : α) := moves_declare stepwise_grows State.grows_insert (c a)
  intro hsep b Γ' rest hyields
  obtain ⟨a, Γ₁, rest₁, hfirst, hyields⟩ := hyields.exists_of_bind hp.grows fun a =>
    (hdeclares a).bind stepwise_grows fun _ => (hg a).grows
  obtain ⟨_, Γ₂, rest₂, hdeclare, hyields⟩ :=
    hyields.exists_of_bind (hdeclares a) fun _ => (hg a).grows
  have hΓ : Γ₁ = Γ := by
    have hrun := hctors' (.before Γ (ts ++ us))
    rw [hfirst] at hrun
    exact hrun
  subst hΓ
  have hnew := hdeclare.find?_of_declare
  have hdeclared : ((), State.before Γ₂ rest₂) = ((), State.before (Γ₁.insert (c a)) rest₁) :=
    hdeclare.symm.trans (yields_declare hnew rest₁)
  simp only [State.before, Prod.mk.injEq, State.mk.injEq, true_and] at hdeclared
  obtain ⟨rfl, rfl⟩ := hdeclared
  rcases hp.at_le Γ₁ ts hts hsep a Γ₁ rest₂ hfirst with ⟨ws, hws, hlen, rfl, hfirst'⟩ | hend
  · have hdone : (do let a ← p; declare (c a); g a).run (.before Γ₁ (ts ++ [z]))
        = (g a).run (.before (Γ₁.insert (c a)) (ws ++ [z])) := by
      rw [hfirst'.run_bind]
      exact (yields_declare hnew (ws ++ [z])).run_bind fun _ => g a
    rcases (hg a).at_le _ ws hlen (hsep.of_suffix hws) b Γ' rest hyields with
      ⟨vs, hvs, hlen', hrest, hsecond⟩ | hend
    · exact Or.inl ⟨vs, hvs.trans hws, hlen', hrest, hdone.trans hsecond⟩
    · exact Or.inr (hdone ▸ hend)
  · have hfind : (p.run (.before Γ₁ (ts ++ [z]))).2.ctors.find? (c (p.run (.before Γ₁ (ts ++ [z]))).1).name
        = none := by
      rw [hctors (.before Γ₁ (ts ++ [z])), hname, ← hname a]
      exact hnew
    exact Or.inr ((hg _).idles _ (hend.declare hfind))

variable (hz : z.kind = .eof)
include hz

theorem tracks_constructors (type : String) : ∀ (n n' M : Nat), n ≤ n' → 8 * M + 1 ≤ n →
    Tracks z us M M (constructors n type) (constructors n' type)
  | n + 1, n' + 1, M, hnn', hn => by
      have hgrows := moves_constructors stepwise_grows State.grows_insert type (n' + 1)
      refine .of_cons hz hgrows (idles_constructors _ _) fun Γ t ts hts => ?_
      obtain ⟨K, rfl⟩ := Nat.exists_eq_add_one.mpr (hts.trans_lt' (Nat.zero_lt_succ _))
      have hts : ts.length ≤ K := by simpa using hts
      have htypes : Tracks z us K K (atomicTypes n) (atomicTypes n') :=
        tracks_atomicTypes hz n n' K (by omega) (by omega)
      have hconstructors := tracks_constructors type n n' K (by omega) (by omega)
      -- what is read behind a constructor, which is the last one or not
      have hafter (c : Constructor) : Tracks z us K (K + 1)
          (do if ← accept .bar then return (← constructors n type).map (c :: ·) else return some [c])
          (do if ← accept .bar then return (← constructors n' type).map (c :: ·) else return some [c]) := by
        refine (tracks_accept hz (by simp)).bind fun b => ?_
        cases b with
        | false => exact tracks_pure _ (by omega)
        | true => exact hconstructors.bind fun cs => tracks_pure _ (by omega)
      rw [constructors, constructors]
      by_cases ht : t.kind = .ident
      · refine tracksAt_expect_bind ht ?_
        rw [if_neg (by simp [ht]), if_neg (by simp [ht])]
        have hdeclare := tracksAt_declare (Γ := Γ) htypes (moves_atomicTypes stepwise_ctors n)
          (moves_atomicTypes stepwise_ctors n') (c := fun fields => ⟨t.text, fields, type, t.pos⟩)
          (fun _ => rfl) (fun fields => hafter ⟨t.text, fields, type, t.pos⟩) hts
        exact hdeclare
      · refine tracksAt_expect_bind_of_ne (by simp) (fun x => ?_) ht ts
        split
        · exact moves_pure stepwise_grows _
        · refine htypes.grows.bind stepwise_grows fun fields => ?_
          exact (moves_declare stepwise_grows State.grows_insert _).bind stepwise_grows fun _ =>
            (hafter _).grows

theorem tracks_synchronize : ∀ (n n' M : Nat), n ≤ n' → M + 1 ≤ n →
    Tracks z us M M (synchronize n) (synchronize n')
  | n + 1, n' + 1, M, hnn', hn => by
      refine .of_cons hz (moves_synchronize stepwise_grows _) (idles_synchronize _) fun Γ t ts hts => ?_
      obtain ⟨K, rfl⟩ := Nat.exists_eq_add_one.mpr (hts.trans_lt' (Nat.zero_lt_succ _))
      have hts' : ts.length ≤ K := by simpa using hts
      have hrest := tracks_synchronize n n' K (by omega) (by omega)
      rw [synchronize, synchronize]
      refine tracksAt_current_bind ?_
      cases hk : t.kind with
      | eof => exact tracksAt_pure _ hts
      | kwData => exact tracksAt_pure _ hts
      | kwImport => exact tracksAt_pure _ hts
      | semicolon => exact tracksAt_advance_bind (tracksAt_pure _ (by omega))
      | _ => exact tracksAt_advance_bind ((hrest.mono le_rfl (Nat.le_succ K)).at_le Γ ts hts')

/-- What comes behind the constructors of the type `name`. -/
theorem tracks_declared (n n' M : Nat) (hnn' : n ≤ n') (hn : 8 * (M + 1) + 1 ≤ n) (name d : Token)
    (cs : Option (List Constructor)) :
    Tracks z us M M
      (match cs with
        | some cs => do
          let _ ← expect .semicolon
          return some (DataDecl.mk name.text cs d.pos)
        | none => do
          synchronize n
          return none)
      (match cs with
        | some cs => do
          let _ ← expect .semicolon
          return some (DataDecl.mk name.text cs d.pos)
        | none => do
          synchronize n'
          return none) := by
  cases cs with
  | none => exact (tracks_synchronize hz n n' M hnn' (by omega)).bind fun _ => tracks_pure _ le_rfl
  | some cs => exact (tracks_expect hz (by simp)).keep.bind fun _ => tracks_pure _ le_rfl

theorem tracks_dataDecl (n n' M : Nat) (hnn' : n ≤ n') (hn : 8 * (M + 1) + 1 ≤ n) :
    Tracks z us (M + 1) M (dataDecl n) (dataDecl n') := by
  have hnone : Tracks z us M M (do synchronize n; return (none : Option DataDecl))
      (do synchronize n'; return none) :=
    (tracks_synchronize hz n n' M hnn' (by omega)).bind fun _ => tracks_pure _ le_rfl
  have hassign : Tracks z us M M (expect .assign) (expect .assign) :=
    (tracks_expect hz (by simp)).keep
  have hbody (name d : Token) := hassign.bind fun _ =>
    (tracks_constructors hz name.text n n' M hnn' (by omega)).bind
      (tracks_declared hz n n' M hnn' hn name d)
  unfold dataDecl
  refine (tracks_expect hz (by simp)).bind fun d => ?_
  refine (tracks_expect_bind hz (by simp) (fun name => ?_) (fun name hname => ?_)
    fun name hname => ?_).keep
  · split
    · exact hnone.grows
    · exact (hbody name d).grows
  · rw [if_pos (by simp [hname])]
    exact hnone.idles
  · rw [if_neg (by simp [hname]), if_neg (by simp [hname])]
    exact hbody name d

theorem tracks_dataDecls (n n' M : Nat) (hnn' : n ≤ n') (hn : 8 * M + 2 ≤ n) :
    Tracks z us M M (dataDecls n) (dataDecls n') := by
  induction n generalizing n' M with
  | zero => omega
  | succ n ih =>
      obtain ⟨n', rfl⟩ := Nat.exists_eq_add_one.mpr ((Nat.zero_lt_succ n).trans_le hnn')
      have hgrows := moves_dataDecls stepwise_grows State.grows_insert (n' + 1)
      refine .of_cons hz hgrows (idles_dataDecls _) fun Γ t ts hts => ?_
      obtain ⟨K, rfl⟩ := Nat.exists_eq_add_one.mpr (hts.trans_lt' (Nat.zero_lt_succ _))
      have hdecl : Tracks z us (K + 1) K (dataDecl n) (dataDecl n') :=
        tracks_dataDecl hz n n' K (by omega) (by omega)
      have hdecls := ih n' K (by omega) (by omega)
      rw [dataDecls, dataDecls]
      refine tracksAt_check_bind ?_
      cases t.kind == .kwData with
      | false => exact tracksAt_pure _ hts
      | true =>
          refine (hdecl.at_le Γ (t :: ts) hts).bind hdecl.grows fun d => ?_
          exact hdecls.bind fun ds => tracks_pure _ (by omega)

/-! ## Lines -/

theorem tracks_finish (M : Nat) : Tracks z us M M finish finish := by
  unfold finish
  refine (tracks_accept hz (by simp)).bind fun _ => ?_
  refine .of_cons hz (moves_current_bind fun t => ?_) (idles_current_bind fun t ht => ?_)
    fun Γ t ts hts => tracksAt_current_bind ?_
  · split
    · exact moves_complain stepwise_grows t _
    · exact moves_pure stepwise_grows _
  · rw [if_neg (by simp [ht])]
    exact idles_pure _
  · by_cases ht : t.kind = .eof
    · rw [if_neg (by simp [ht])]
      exact tracksAt_pure _ hts
    · rw [if_pos ht]
      exact tracksAt_of_ensures (ensures_complain t (by simp [IsComplaint, toString]) _)

theorem tracks_definition (n n' M : Nat) (hnn' : n ≤ n') (hn : 8 * M + 4 ≤ n) :
    Tracks z us M M (definition n) (definition n') := by
  have hexpr : Tracks z us M M (expr n) (expr n') := tracks_expr hz n n' M hnn' hn
  unfold definition
  refine (tracks_expect hz (by simp)).keep.bind fun _ => (tracks_binderName hz).keep.bind fun _ => ?_
  refine (tracks_expect hz (by simp)).keep.bind fun _ => hexpr.bind fun _ => ?_
  refine (tracks_current hz).bind fun t => ?_
  dsimp only
  by_cases ht : t.kind = .eof ∨ t.kind = .semicolon
  · rw [if_pos ht, if_pos ht]
    exact tracks_pure _ le_rfl
  · rw [if_neg ht, if_neg ht]
    refine (tracks_expect hz (by simp)).keep.bind fun _ => hexpr.bind fun _ => ?_
    exact tracks_pure _ le_rfl

/-- A line that is cut off is read like the whole line or up to the end of the input. -/
theorem tracks_line (n n' M : Nat) (hnn' : n ≤ n') (hn : 8 * M + 4 ≤ n) :
    Tracks z us M M (line n) (line n') := by
  have hexpr : Tracks z us M M (expr n) (expr n') := tracks_expr hz n n' M hnn' hn
  unfold line
  refine (tracks_dataDecls hz n n' M hnn' (by omega)).bind fun data => ?_
  refine (tracks_current hz).bind fun t => ?_
  cases t.kind with
  | eof => exact tracks_pure _ le_rfl
  | kwLet =>
      refine (tracks_definition hz n n' M hnn' hn).bind fun r => ?_
      exact (tracks_finish hz M).bind fun _ => tracks_pure _ le_rfl
  | _ =>
      refine hexpr.bind fun e => ?_
      exact (tracks_finish hz M).bind fun _ => tracks_pure _ le_rfl

end FunLang.Parser
