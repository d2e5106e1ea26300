import FunLang.Import.Order
import Mathlib.Data.List.Nodup
import Mathlib.Logic.Relation
import Mathlib.Tactic

set_option autoImplicit false

/-!
# Files come after their imports

A visit below a trail answers with the files that have been visited, each behind those that it imports,
or with a cycle (`Graph.visit_answers`). From this follow that there is an order if no file imports
itself, directly or through others (`Graph.exists_order`), and what exactly an order or the lack of one
says about the files that are needed (`Graph.order_correct`). The levels of a visit are enough: the files
on a trail are different from each other and import something, so that there are no more of them than
files in the graph.
-/

namespace FunLang.Import.Graph

/-- A file imports another one. -/
def Imports (g : Graph) (p q : Path) : Prop := q ∈ g.importsOf p

/-- Different files, each behind all the files that it imports. -/
inductive Ordered (g : Graph) : List Path → Prop where
  | nil : Ordered g []
  | concat {ps : List Path} {p : Path} (h : Ordered g ps) (hnew : p ∉ ps)
      (himports : ∀ q, g.Imports p q → q ∈ ps) : Ordered g (ps ++ [p])

variable {g : Graph}

theorem mem_keys_of_imports {p q : Path} (h : g.Imports p q) : p ∈ g.map Prod.fst := by
  unfold Imports importsOf at h
  cases hl : List.lookup p g with
  | none => simp [hl] at h
  | some ps =>
      obtain ⟨g₁, g₂, rfl, -⟩ := List.lookup_eq_some_iff.mp hl
      simp

/-- There are no cycles if the files can be numbered so that imports have smaller numbers. -/
theorem acyclic_of_rank {rank : Path → Nat}
    (h : ∀ p ∈ g.map Prod.fst, ∀ q ∈ g.importsOf p, rank q < rank p) (p : Path) :
    ¬ Relation.TransGen g.Imports p p := by
  have hlt : ∀ q, Relation.TransGen g.Imports p q → rank q < rank p := by
    intro q hpq
    induction hpq with
    | single himports => exact h _ (mem_keys_of_imports himports) _ himports
    | tail _ himports ih => exact (h _ (mem_keys_of_imports himports) _ himports).trans ih
  exact fun hp => lt_irrefl _ (hlt p hp)

/-- Files of which each one imports the next, back to the first one. -/
structure IsCycle (g : Graph) (c : List Path) : Prop where
  imports : c.IsChain g.Imports
  closed : c.head? = c.getLast?
  /-- A file alone is no cycle. -/
  proper : 2 ≤ c.length

theorem transGen_of_isChain {p q : Path} {l : List Path} (h : (p :: l ++ [q]).IsChain g.Imports) :
    Relation.TransGen g.Imports p q := by
  induction l generalizing p with
  | nil => exact .single (List.isChain_pair.mp h)
  | cons r l ih =>
      obtain ⟨hpr, hrest⟩ := List.isChain_cons_cons.mp h
      exact (ih hrest).head hpr

/-- From a file of a cycle imports lead back to it. -/
theorem IsCycle.exists_transGen {c : List Path} (h : g.IsCycle c) :
    ∃ p ∈ c, Relation.TransGen g.Imports p p := by
  obtain ⟨himports, hclosed, hproper⟩ := h
  cases c with
  | nil => simp at hproper
  | cons p l =>
      obtain rfl | ⟨l, q, rfl⟩ := l.eq_nil_or_concat
      · simp at hproper
      · obtain rfl : p = q := by simpa [List.getLast?_cons] using hclosed
        exact ⟨p, by simp, transGen_of_isChain (l := l) (by simpa using himports)⟩

/-- A file of the trail that is met again closes a cycle with the files behind it. -/
theorem isCycle_of_mem_trail {trail : List Path} {p : Path}
    (htrail : (trail ++ [p]).IsChain g.Imports) (hp : p ∈ trail) :
    g.IsCycle (trail.dropWhile (· ≠ p) ++ [p]) := by
  obtain ⟨before, behind, rfl, hnew⟩ := List.eq_append_cons_of_mem hp
  have hdrop : (before ++ p :: behind).dropWhile (· ≠ p) = p :: behind := by
    have hbefore : ∀ q ∈ before, decide (q ≠ p) = true := by
      intro q hq
      exact decide_eq_true fun heq => hnew (heq ▸ hq)
    rw [List.dropWhile_append_of_pos hbefore]
    simp
  rw [hdrop]
  refine ⟨htrail.suffix ⟨before, by simp⟩, ?_, by simp⟩
  simp [List.getLast?_cons]

/-- The files on a trail, each of which imports the next one or the file that is visited below them,
are no more than there are in the graph. -/
theorem length_le_of_trail {trail : List Path} {p : Path} (hnodup : trail.Nodup)
    (htrail : (trail ++ [p]).IsChain g.Imports) : trail.length ≤ g.length := by
  have hsub : trail ⊆ g.map Prod.fst := by
    intro t ht
    obtain ⟨before, behind, rfl⟩ := List.append_of_mem ht
    have hbehind : (t :: (behind ++ [p])).IsChain g.Imports := htrail.suffix ⟨before, by simp⟩
    cases behind with
    | nil => exact mem_keys_of_imports (List.isChain_cons_cons.mp hbehind).1
    | cons q behind => exact mem_keys_of_imports (List.isChain_cons_cons.mp hbehind).1
  simpa using (hnodup.subperm hsub).length_le

/-! ## What a visit answers -/

/-- What visiting some files below a trail makes of the files that have been visited before. -/
structure Visited (g : Graph) (trail ps done done' : List Path) : Prop where
  ordered : g.Ordered done'
  keeps : done ⊆ done'
  covers : ps ⊆ done'
  /-- What is added is needed, and no file of the trail. -/
  added : ∀ q ∈ done', q ∈ done ∨ q ∉ trail ∧ ∃ p ∈ ps, Relation.ReflTransGen g.Imports p q

/-- What visiting some files below a trail answers: the visited files, or a cycle of files that are
needed or on the trail. -/
def Answers (g : Graph) (trail ps done : List Path) : Except (List Path) (List Path) → Prop
  | .ok done' => Visited g trail ps done done'
  | .error c => g.IsCycle c ∧ ∀ q ∈ c, q ∈ trail ∨ ∃ p ∈ ps, Relation.ReflTransGen g.Imports p q

/-- Files are visited one after the other, up to the first cycle. -/
theorem foldlM_visit_answers {levels : Nat} {trail : List Path} (ps : List Path)
    (h : ∀ p ∈ ps, ∀ done, g.Ordered done → Answers g trail [p] done (g.visit levels trail done p))
    {done : List Path} (hdone : g.Ordered done) :
    Answers g trail ps done (ps.foldlM (g.visit levels trail) done) := by
  induction ps generalizing done with
  | nil => exact ⟨hdone, fun _ => id, by simp, fun _ => Or.inl⟩
  | cons p ps ih =>
      have hp := h p (by simp) done hdone
      rw [List.foldlM_cons]
      cases hvisit : g.visit levels trail done p with
      | error c =>
          rw [hvisit] at hp
          exact ⟨hp.1, fun q hq => (hp.2 q hq).imp_right fun hq => ⟨p, by simp, by simpa using hq⟩⟩
      | ok done₁ =>
          rw [hvisit] at hp
          have hps := ih (fun q hq => h q (by simp [hq])) hp.ordered
          show Answers g trail (p :: ps) done (ps.foldlM (g.visit levels trail) done₁)
          cases hfold : ps.foldlM (g.visit levels trail) done₁ with
          | error c =>
              rw [hfold] at hps
              refine ⟨hps.1, fun q hq => (hps.2 q hq).imp_right ?_⟩
              rintro ⟨r, hr, hrq⟩
              exact ⟨r, by simp [hr], hrq⟩
          | ok done₂ =>
              rw [hfold] at hps
              refine ⟨hps.ordered, fun q hq => hps.keeps (hp.keeps hq), ?_, fun q hq => ?_⟩
              · exact List.cons_subset.mpr ⟨hps.keeps (hp.covers (by simp)), hps.covers⟩
              · rcases hps.added q hq with hq | ⟨hnew, r, hr, hrq⟩
                · exact (hp.added q hq).imp_right fun ⟨hnew, hpq⟩ =>
                    ⟨hnew, p, by simp, by simpa using hpq⟩
                · exact Or.inr ⟨hnew, r, by simp [hr], hrq⟩

/-- When the imports of a file have been visited below it, the file comes behind them. -/
theorem Visited.concat {trail done done' : List Path} {p : Path}
    (h : Visited g (trail ++ [p]) (g.importsOf p) done done') (htrail : p ∉ trail) (hdone : p ∉ done) :
    Visited g trail [p] done (done' ++ [p]) := by
  -- the file was on the trail of its imports, so that none of their visits has added it
  have hnew : p ∉ done' := fun hmem => by
    rcases h.added p hmem with hmem | ⟨hmem, -⟩
    · exact hdone hmem
    · simp at hmem
  refine ⟨.concat h.ordered hnew fun q hq => h.covers hq,
    fun q hq => List.mem_append_left _ (h.keeps hq), by simp, fun q hq => ?_⟩
  rcases List.mem_append.mp hq with hq | hq
  · refine (h.added q hq).imp_right ?_
    rintro ⟨hq, r, hr, hrq⟩
    exact ⟨fun ht => hq (List.mem_append_left _ ht), p, by simp, hrq.head hr⟩
  · rw [List.mem_singleton.mp hq]
    exact Or.inr ⟨htrail, p, by simp, .refl⟩

/-- A visit answers for the file that is visited, if the trail leads to it. -/
theorem visit_answers (levels : Nat) :
    ∀ (trail : List Path) (p : Path), trail.Nodup → (trail ++ [p]).IsChain g.Imports →
      g.length < levels + trail.length → ∀ done, g.Ordered done →
      Answers g trail [p] done (g.visit levels trail done p) := by
  induction levels with
  | zero =>
      -- no trail is so long that the levels run out below it
      intro trail p hnodup htrail hlevels
      have hlength := length_le_of_trail hnodup htrail
      omega
  | succ levels ih =>
      intro trail p hnodup htrail hlevels done hdone
      rw [visit]
      by_cases hp : p ∈ trail
      · rw [if_pos hp]
        refine ⟨isCycle_of_mem_trail htrail hp, fun q hq => ?_⟩
        rcases List.mem_append.mp hq with hq | hq
        · exact Or.inl ((List.dropWhile_sublist _).subset hq)
        · exact Or.inl (List.mem_singleton.mp hq ▸ hp)
      rw [if_neg hp]
      by_cases hvisited : p ∈ done
      · rw [if_pos hvisited]
        exact ⟨hdone, fun _ => id, by simpa using hvisited, fun _ => Or.inl⟩
      rw [if_neg hvisited]
      have hvisits : ∀ q ∈ g.importsOf p, ∀ done, g.Ordered done →
          Answers g (trail ++ [p]) [q] done (g.visit levels (trail ++ [p]) done q) := by
        intro q hq
        refine ih (trail ++ [p]) q ?_ ?_ (by simp; omega)
        · exact List.nodup_append.mpr ⟨hnodup, by simp, fun t ht q hq heq =>
            hp (List.mem_singleton.mp hq ▸ heq ▸ ht)⟩
        · exact htrail.append (List.isChain_singleton q) (by simpa [Imports] using hq)
      have hanswers := foldlM_visit_answers (g.importsOf p) hvisits hdone
      cases hfold : (g.importsOf p).foldlM (g.visit levels (trail ++ [p])) done with
      | error c =>
          -- the trail of the imports is longer by the file itself, which may be on the cycle
          rw [hfold] at hanswers
          refine ⟨hanswers.1, fun q hq => ?_⟩
          rcases hanswers.2 q hq with hq | ⟨r, hr, hrq⟩
          · rcases List.mem_append.mp hq with hq | hq
            · exact Or.inl hq
            · exact Or.inr ⟨p, by simp, List.mem_singleton.mp hq ▸ .refl⟩
          · exact Or.inr ⟨p, by simp, hrq.head hr⟩
      | ok done' =>
          rw [hfold] at hanswers
          exact Visited.concat hanswers hp hvisited

/-- The order of the files that a file needs, or a cycle among them. -/
theorem order_answers (g : Graph) (entry : Path) : Answers g [] [entry] [] (g.order entry) :=
  visit_answers _ [] entry .nil (List.isChain_singleton entry) (by simp) [] .nil

/-- Without cycles there is an order. -/
theorem exists_order (hacyclic : ∀ p, ¬ Relation.TransGen g.Imports p p) (entry : Path) :
    ∃ order, g.order entry = .ok order ∧ g.Ordered order ∧ entry ∈ order := by
  have hanswers := g.order_answers entry
  cases horder : g.order entry with
  | error c =>
      rw [horder] at hanswers
      obtain ⟨p, -, hp⟩ := hanswers.1.exists_transGen
      exact absurd hp (hacyclic p)
  | ok order =>
      rw [horder] at hanswers
      exact ⟨order, rfl, hanswers.ordered, hanswers.covers (by simp)⟩

/-! ## What an order says -/

/-- With a file its imports are in the order. -/
theorem Ordered.mem_of_imports {order : List Path} (h : g.Ordered order) {p q : Path} (hp : p ∈ order)
    (hq : g.Imports p q) : q ∈ order := by
  induction h with
  | nil => simp at hp
  | concat _ _ himports ih =>
      rcases List.mem_append.mp hp with hp | hp
      · exact List.mem_append_left _ (ih hp)
      · rw [List.mem_singleton.mp hp] at hq
        exact List.mem_append_left _ (himports q hq)

theorem Ordered.mem_of_reaches {order : List Path} (h : g.Ordered order) {p q : Path} (hp : p ∈ order)
    (hpq : Relation.ReflTransGen g.Imports p q) : q ∈ order := by
  induction hpq with
  | refl => exact hp
  | tail _ himports ih => exact h.mem_of_imports ih himports

theorem Ordered.nodup {order : List Path} (h : g.Ordered order) : order.Nodup := by
  induction h with
  | nil => exact .nil
  | concat _ hnew _ ih => simpa only [List.concat_eq_append] using ih.concat hnew

/-- What a file imports stands before it. -/
theorem Ordered.idxOf_lt {order : List Path} (h : g.Ordered order) {p q : Path} (hp : p ∈ order)
    (hq : g.Imports p q) : order.idxOf q < order.idxOf p := by
  induction h with
  | nil => simp at hp
  | @concat ps r hps hnew himports ih =>
      by_cases hmem : p ∈ ps
      · rw [List.idxOf_append_of_mem hmem, List.idxOf_append_of_mem (hps.mem_of_imports hmem hq)]
        exact ih hmem
      · obtain rfl : p = r := by simpa [hmem] using hp
        have hbefore : q ∈ ps := himports q hq
        rw [List.idxOf_append_of_mem hbefore, List.idxOf_append_of_notMem hnew]
        have hlt := List.idxOf_lt_length_of_mem hbefore
        omega

theorem Ordered.idxOf_lt_of_transGen {order : List Path} (h : g.Ordered order) {p q : Path}
    (hp : p ∈ order) (hpq : Relation.TransGen g.Imports p q) : order.idxOf q < order.idxOf p := by
  induction hpq with
  | single himports => exact h.idxOf_lt hp himports
  | tail hpr himports ih => exact (h.idxOf_lt (h.mem_of_reaches hp hpr.to_reflTransGen) himports).trans ih

/-- A file that needs all others is the last one. -/
theorem Ordered.getLast?_eq {order : List Path} (h : g.Ordered order) {entry : Path}
    (hentry : entry ∈ order) (hneeds : ∀ q ∈ order, Relation.ReflTransGen g.Imports entry q) :
    order.getLast? = some entry := by
  obtain rfl | ⟨ps, p, rfl⟩ := order.eq_nil_or_concat
  · simp at hentry
  rw [List.concat_eq_append] at h hentry hneeds ⊢
  obtain rfl | hstrict := Relation.reflTransGen_iff_eq_or_transGen.mp (hneeds p (by simp))
  · simp
  · have hlt := h.idxOf_lt_of_transGen hentry hstrict
    have hnew : p ∉ ps := fun hmem => (List.nodup_append.mp h.nodup).2.2 p hmem p (by simp) rfl
    have hle := List.idxOf_lt_length_of_mem hentry
    rw [List.idxOf_append_of_notMem hnew] at hlt
    rw [List.length_append, List.length_singleton] at hle
    omega

/-- **The order of imported files is right.** There is none exactly if the entry needs a file that
leads back to itself, and then the answer is a cycle of imports. Otherwise it lists the files that
the entry needs, each one once and behind all that it imports, and the entry last. -/
theorem order_correct (g : Graph) (entry : Path) :
    ((∃ c, g.order entry = .error c) ↔
      ∃ p, Relation.ReflTransGen g.Imports entry p ∧ Relation.TransGen g.Imports p p) ∧
    (∀ c, g.order entry = .error c → g.IsCycle c) ∧
    (∀ ps, g.order entry = .ok ps →
      ps.Nodup ∧ (∀ q, q ∈ ps ↔ Relation.ReflTransGen g.Imports entry q) ∧
      (∀ p ∈ ps, ∀ q, g.Imports p q → ps.idxOf q < ps.idxOf p) ∧ ps.getLast? = some entry) := by
  have hanswers := g.order_answers entry
  cases horder : g.order entry with
  | error c =>
      rw [horder] at hanswers
      obtain ⟨hcycle, hneeded⟩ := hanswers
      obtain ⟨p, hp, hpp⟩ := hcycle.exists_transGen
      have hreaches : Relation.ReflTransGen g.Imports entry p := by simpa using hneeded p hp
      refine ⟨⟨fun _ => ⟨p, hreaches, hpp⟩, fun _ => ⟨c, rfl⟩⟩, ?_, by simp⟩
      rintro c ⟨⟩
      exact hcycle
  | ok ps =>
      rw [horder] at hanswers
      have hentry : entry ∈ ps := hanswers.covers (by simp)
      have hmem : ∀ q, q ∈ ps ↔ Relation.ReflTransGen g.Imports entry q := fun q =>
        ⟨fun hq => by simpa using hanswers.added q hq, hanswers.ordered.mem_of_reaches hentry⟩
      refine ⟨⟨by simp, ?_⟩, by simp, ?_⟩
      · rintro ⟨p, hreaches, hpp⟩
        exact absurd (hanswers.ordered.idxOf_lt_of_transGen ((hmem p).mpr hreaches) hpp) (lt_irrefl _)
      · rintro ps ⟨⟩
        exact ⟨hanswers.ordered.nodup, hmem, fun p hp q => hanswers.ordered.idxOf_lt hp,
          hanswers.ordered.getLast?_eq hentry fun q => (hmem q).mp⟩

end FunLang.Import.Graph
