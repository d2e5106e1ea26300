import FunLang.Proofs.Token.Spelling

set_option autoImplicit false

/-!
# Gaps

What stands between two tokens: blanks, line ends and comments, each of them complete. A comment that
starts with two slashes is complete at the end of its line or of the text, and one that needs a closing
mark ends with the first one after its start (`GapBefore`).

Every text starts with a gap, behind which it ends or goes on with something that is no gap
(`exists_gapBefore`), and that is where `skipGap` arrives (`skipGap_append`).
-/

namespace FunLang

/-! ## Places -/

/-- The place behind a text that starts at `p`. -/
def Pos.after (p : Pos) : List UInt8 → Pos
  | [] => p
  | b :: bs => (if b = 0x0A then p.nextLine else p.right 1).after bs

theorem Pos.after_append (p : Pos) (bs cs : List UInt8) : p.after (bs ++ cs) = (p.after bs).after cs := by
  induction bs generalizing p with
  | nil => rfl
  | cons b bs ih =>
      rw [List.cons_append, Pos.after, Pos.after]
      exact ih _

theorem Pos.right_right (p : Pos) (m n : Nat) : (p.right m).right n = p.right (m + n) := by
  simp only [Pos.right, Nat.add_assoc]

/-- A text without a line end is as wide as it is long. -/
theorem Pos.after_eq_right (p : Pos) {bs : List UInt8} (h : 0x0A ∉ bs) : p.after bs = p.right bs.length := by
  induction bs generalizing p with
  | nil => rfl
  | cons b bs ih =>
      obtain ⟨hb, hbs⟩ := List.ne_and_not_mem_of_not_mem_cons h
      rw [Pos.after, if_neg (Ne.symm hb), ih _ hbs, Pos.right_right, List.length_cons, Nat.add_comm]

namespace Lexer

/-! ## What a gap consists of -/

/-- The mark at the end of a comment that needs one. -/
def closingMark : List UInt8 := [0x2A, 0x2F]

/-- Blanks, line ends and comments, where `rest` comes after them. -/
inductive GapBefore (rest : List UInt8) : List UInt8 → Prop where
  | nil : GapBefore rest []
  | blank {b : UInt8} {gap : List UInt8} (hb : isGap b = true) (h : GapBefore rest gap) :
      GapBefore rest (b :: gap)
  | lineComment {body gap : List UInt8} (hbody : 0x0A ∉ body) (h : GapBefore rest gap) :
      GapBefore rest (0x2F :: 0x2F :: (body ++ 0x0A :: gap))
  | lastLineComment {body : List UInt8} (hbody : 0x0A ∉ body) (hrest : rest = []) :
      GapBefore rest (0x2F :: 0x2F :: body)
  | blockComment {body gap : List UInt8} (hbody : ¬ closingMark <:+: body ++ [0x2A])
      (h : GapBefore rest gap) : GapBefore rest (0x2F :: 0x2A :: (body ++ 0x2A :: 0x2F :: gap))

/-- Whether a text starts with a blank, a line end or a comment, closed or not. -/
def opensGap : List UInt8 → Bool
  | [] => false
  | b :: bs => isGap b || (b == 0x2F && (bs.head? == some 0x2F || bs.head? == some 0x2A))

/-- A comment up to the end of the text that has no closing mark. -/
def IsUnclosedComment (bs : List UInt8) : Prop :=
  ∃ body, bs = 0x2F :: 0x2A :: body ∧ ¬ closingMark <:+: body

/-! ## Every text starts with a gap -/

/-- A text with a closing mark, cut at the first one. -/
theorem exists_append_closingMark {bs : List UInt8} (h : closingMark <:+: bs) :
    ∃ body rest, bs = body ++ 0x2A :: 0x2F :: rest ∧ ¬ closingMark <:+: body ++ [0x2A] := by
  induction bs with
  | nil => simp [closingMark] at h
  | cons b bs ih =>
      by_cases hprefix : closingMark <+: b :: bs
      · obtain ⟨rest, hrest⟩ := hprefix
        exact ⟨[], rest, hrest.symm, by decide⟩
      · -- no mark starts here, so the first one of the tail is the first one of the whole
        obtain ⟨body, rest, rfl, hbody⟩ := ih ((List.infix_cons_iff.mp h).resolve_left hprefix)
        refine ⟨b :: body, rest, rfl, fun hinfix => ?_⟩
        rcases List.infix_cons_iff.mp hinfix with hfirst | hlater
        · have happend : body ++ [0x2A] <+: body ++ 0x2A :: 0x2F :: rest :=
            (List.prefix_append_right_inj body).mpr (List.prefix_append [0x2A] (0x2F :: rest))
          exact hprefix (hfirst.trans (List.cons_prefix_cons.mpr ⟨rfl, happend⟩))
        · exact hbody hlater

/-- Every text starts with a gap. What comes after it is no gap, if not a comment that is not closed. -/
theorem exists_gapBefore (bs : List UInt8) : ∃ gap rest, bs = gap ++ rest ∧ GapBefore rest gap ∧
    (opensGap rest = false ∨ IsUnclosedComment rest) := by
  induction hn : bs.length using Nat.strong_induction_on generalizing bs with
  | _ n ih =>
      by_cases hopens : opensGap bs = true
      · cases bs with
        | nil => simp [opensGap] at hopens
        | cons b cs =>
            by_cases hblank : isGap b = true
            · obtain ⟨gap, rest, rfl, hgap, hrest⟩ := ih cs.length (by simp [← hn]) cs rfl
              exact ⟨b :: gap, rest, rfl, .blank hblank hgap, hrest⟩
            · simp only [opensGap, Bool.or_eq_true, hblank, Bool.false_eq_true, false_or,
                Bool.and_eq_true, beq_iff_eq] at hopens
              obtain ⟨rfl, hhead⟩ := hopens
              rcases hhead with hhead | hhead
              · -- a comment that ends with its line
                obtain ⟨ds, rfl⟩ := List.head?_eq_some_iff.mp hhead
                by_cases hline : (0x0A : UInt8) ∈ ds
                · obtain ⟨body, es, rfl, hbody⟩ := List.eq_append_cons_of_mem hline
                  obtain ⟨gap, rest, rfl, hgap, hrest⟩ :=
                    ih es.length (by simp [← hn]; omega) es rfl
                  refine ⟨0x2F :: 0x2F :: (body ++ 0x0A :: gap), rest, by simp, ?_, hrest⟩
                  exact .lineComment hbody hgap
                · exact ⟨0x2F :: 0x2F :: ds, [], by simp, .lastLineComment hline rfl, Or.inl rfl⟩
              · -- a comment that needs a closing mark
                obtain ⟨ds, rfl⟩ := List.head?_eq_some_iff.mp hhead
                by_cases hmark : closingMark <:+: ds
                · obtain ⟨body, es, rfl, hbody⟩ := exists_append_closingMark hmark
                  obtain ⟨gap, rest, rfl, hgap, hrest⟩ :=
                    ih es.length (by simp [← hn]; omega) es rfl
                  refine ⟨0x2F :: 0x2A :: (body ++ 0x2A :: 0x2F :: gap), rest, by simp, ?_, hrest⟩
                  exact .blockComment hbody hgap
                · exact ⟨[], _, rfl, .nil, Or.inr ⟨ds, rfl, hmark⟩⟩
      · exact ⟨[], bs, rfl, .nil, Or.inl (by simpa using hopens)⟩

/-! ## Passing over gaps -/

theorem skipGap_blank {b : UInt8} (hb : isGap b = true) (bs : List UInt8) (p : Pos) :
    skipGap (b :: bs) p = skipGap bs (p.after [b]) := by
  rw [skipGap.eq_def, Pos.after, Pos.after]
  by_cases hline : b = 0x0A
  · simp only [hline, if_true]
  · have hblank : isBlank b = true := by simpa [isGap, hline] using hb
    simp only [hline, hblank, if_true, if_false]

theorem skipLine_append {body : List UInt8} (hline : 0x0A ∉ body) (hnul : 0 ∉ body) (rest : List UInt8)
    (p : Pos) : skipLine (body ++ rest) p = skipLine rest (p.after body) := by
  induction body generalizing p with
  | nil => rfl
  | cons b body ih =>
      obtain ⟨hb, hline⟩ := List.ne_and_not_mem_of_not_mem_cons hline
      obtain ⟨hb', hnul⟩ := List.ne_and_not_mem_of_not_mem_cons hnul
      rw [List.cons_append, skipLine.eq_def, Pos.after]
      simp only [Ne.symm hb, Ne.symm hb', if_false]
      exact ih hline hnul _

/-- A byte inside of a comment at which no closing mark starts. -/
theorem skipBlock_cons (start : Pos) {b : UInt8} (hb : b ≠ 0) {bs : List UInt8}
    (hmark : ¬ (b = 0x2A ∧ bs.head? = some 0x2F)) (p : Pos) :
    skipBlock start (b :: bs) p = skipBlock start bs (p.after [b]) := by
  rw [skipBlock.eq_def, Pos.after, Pos.after]
  by_cases hline : b = 0x0A
  · subst hline
    rfl
  · by_cases hstar : b = 0x2A
    · subst hstar
      cases bs with
      | nil => rfl
      | cons c cs =>
          have hc : c ≠ 0x2F := by simpa using hmark
          simp only [hb, hline, hc, if_true, if_false]
    · simp only [hb, hline, hstar, if_false]

theorem skipBlock_append (start : Pos) {body rest : List UInt8} (hnul : 0 ∉ body)
    (hmark : ¬ closingMark <:+: body ++ rest.take 1) (p : Pos) :
    skipBlock start (body ++ rest) p = skipBlock start rest (p.after body) := by
  induction body generalizing p with
  | nil => rfl
  | cons b body ih =>
      obtain ⟨hb, hnul⟩ := List.ne_and_not_mem_of_not_mem_cons hnul
      rw [List.cons_append, List.infix_cons_iff, not_or] at hmark
      have hfirst : ¬ (b = 0x2A ∧ (body ++ rest).head? = some 0x2F) := by
        rintro ⟨rfl, hhead⟩
        refine hmark.1 (List.cons_prefix_cons.mpr ⟨rfl, ?_⟩)
        cases body with
        | nil =>
            obtain ⟨cs, rfl⟩ := List.head?_eq_some_iff.mp hhead
            exact List.prefix_rfl
        | cons c cs =>
            obtain rfl : c = 0x2F := by simpa using hhead
            exact List.cons_prefix_cons.mpr ⟨rfl, List.nil_prefix⟩
      rw [List.cons_append, skipBlock_cons start (Ne.symm hb) hfirst, ih hnul hmark.2,
        ← Pos.after_append, List.singleton_append]

/-- A gap is passed over, and then the next one. -/
theorem skipGap_append {gap rest : List UInt8} (h : GapBefore rest gap) (hnul : 0 ∉ gap) (p : Pos) :
    skipGap (gap ++ rest) p = skipGap rest (p.after gap) := by
  induction h generalizing p with
  | nil => rfl
  | blank hb _ ih =>
      obtain ⟨-, hnul⟩ := List.ne_and_not_mem_of_not_mem_cons hnul
      rw [List.cons_append, skipGap_blank hb, ih hnul, ← Pos.after_append, List.singleton_append]
  | @lineComment body gap hbody _ ih =>
      simp only [List.mem_cons, List.mem_append, not_or] at hnul
      obtain ⟨-, -, hbody', -, hgap⟩ := hnul
      calc skipGap (0x2F :: 0x2F :: (body ++ 0x0A :: gap) ++ rest) p
          = skipLine (body ++ 0x0A :: (gap ++ rest)) (p.right 2) := by
            simp [skipGap.eq_def (0x2F :: _), isBlank]
        _ = skipGap (gap ++ rest) ((p.right 2).after body).nextLine := by
            rw [skipLine_append hbody hbody', skipLine.eq_def]
            simp
        _ = skipGap rest (p.after (0x2F :: 0x2F :: (body ++ 0x0A :: gap))) := by
            rw [ih hgap]
            simp [Pos.after, Pos.after_append, Pos.right_right]
  | @lastLineComment body hbody hrest =>
      simp only [List.mem_cons, not_or] at hnul
      subst hrest
      have hline := skipLine_append hbody hnul.2.2 [] (p.right 2)
      rw [List.append_nil] at hline
      rw [List.append_nil]
      calc skipGap (0x2F :: 0x2F :: body) p
          = skipLine body (p.right 2) := by simp [skipGap.eq_def (0x2F :: _), isBlank]
        _ = .passed ⟨[], (p.right 2).after body⟩ := by rw [hline, skipLine.eq_def]
        _ = skipGap [] (p.after (0x2F :: 0x2F :: body)) := by
            rw [skipGap.eq_def]
            simp [Pos.after, Pos.right_right]
  | @blockComment body gap hbody _ ih =>
      simp only [List.mem_cons, List.mem_append, not_or] at hnul
      obtain ⟨-, -, hbody', -, -, hgap⟩ := hnul
      calc skipGap (0x2F :: 0x2A :: (body ++ 0x2A :: 0x2F :: gap) ++ rest) p
          = skipBlock p (body ++ 0x2A :: 0x2F :: (gap ++ rest)) (p.right 2) := by
            simp [skipGap.eq_def (0x2F :: _), isBlank]
        _ = skipGap (gap ++ rest) (((p.right 2).after body).right 2) := by
            have hmark : ¬ closingMark <:+: body ++ (0x2A :: 0x2F :: (gap ++ rest)).take 1 := hbody
            rw [skipBlock_append p hbody' hmark, skipBlock.eq_def]
            simp
        _ = skipGap rest (p.after (0x2F :: 0x2A :: (body ++ 0x2A :: 0x2F :: gap))) := by
            rw [ih hgap]
            simp [Pos.after, Pos.after_append, Pos.right_right]

/-- Nothing is passed over where no gap begins. -/
theorem skipGap_of_opensGap {bs : List UInt8} (h : opensGap bs = false) (p : Pos) :
    skipGap bs p = .passed ⟨bs, p⟩ := by
  rw [skipGap.eq_def]
  cases bs with
  | nil => rfl
  | cons b bs =>
      simp only [opensGap, isGap, Bool.or_eq_false_iff, beq_eq_false_iff_ne, Bool.and_eq_false_iff] at h
      obtain ⟨⟨hblank, hline⟩, hslash⟩ := h
      simp only [hline, hblank, if_false, Bool.false_eq_true]
      by_cases hb : b = 0x2F
      · subst hb
        cases bs with
        | nil => rfl
        | cons c cs =>
            have hc : c ≠ 0x2F ∧ c ≠ 0x2A := by simpa using hslash
            simp only [hc.1, hc.2, if_true, if_false]
      · simp only [hb, if_false]

/-- A comment that is not closed reaches to the end of the text. -/
theorem skipGap_unclosed {bs : List UInt8} (h : IsUnclosedComment bs) (hnul : 0 ∉ bs) (p : Pos) :
    skipGap bs p = .unclosed p ⟨[], p.after bs⟩ := by
  obtain ⟨body, rfl, hbody⟩ := h
  simp only [List.mem_cons, not_or] at hnul
  have hmark : ¬ closingMark <:+: body ++ ([] : List UInt8).take 1 := by simpa using hbody
  have hblock := skipBlock_append p hnul.2.2 hmark (p.right 2)
  rw [List.append_nil] at hblock
  calc skipGap (0x2F :: 0x2A :: body) p
      = skipBlock p body (p.right 2) := by simp [skipGap.eq_def (0x2F :: _), isBlank]
    _ = .unclosed p ⟨[], (p.right 2).after body⟩ := by rw [hblock, skipBlock.eq_def]
    _ = .unclosed p ⟨[], p.after (0x2F :: 0x2A :: body)⟩ := by simp [Pos.after, Pos.right_right]

end Lexer

end FunLang
