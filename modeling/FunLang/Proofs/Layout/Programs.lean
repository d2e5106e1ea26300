import FunLang.Proofs.Layout.Exprs
import FunLang.Proofs.Syntax.Tables

set_option autoImplicit false

/-!
# The tokens of programs

The text of a well-formed program spells its data declarations and its body. Which constructors are
known to the body depends on the tokens of the declarations, if only in their places, so that the
table of constructors is a part of what the declarations spell.
-/

namespace FunLang.Layout

open Lexer Grammar

variable {Γ Δ : CtorTable}

/-! ## Bodies -/

theorem writesAt_expr (hΔ : Γ.Alike Δ) {e : Expr} (h : e.isWellFormed Γ = true) :
    WritesAt Δ top (expr e) e := by
  rw [expr, Expr.surface_eq h]
  exact writesAt_exprAt hΔ h top (by decide)

theorem alternativeLines_eq {alts : List Alt} (h : Alt.areWellFormed Γ alts = true) :
    alternativeLines alts = alternativesIn "  | " "\n" alts := by
  induction alts with
  | nil => rfl
  | cons a alts ih =>
      obtain ⟨p, q, e⟩ := a
      simp only [Alt.areWellFormed, Bool.and_eq_true] at h
      rw [alternativeLines, alternativesIn, Expr.surface_eq h.1.2, ih h.2]

theorem writesAt_line (hΔ : Γ.Alike Δ) {e : Expr} (h : e.isWellFormed Γ = true) :
    WritesAt Δ top (expr e ++ "\n") e :=
  (writesAt_expr hΔ h).before_gap rfl rfl

/-- The lines of a body spell the same expression as its text on one line. -/
theorem writesAt_body (hΔ : Γ.Alike Δ) : ∀ {e : Expr}, e.isWellFormed Γ = true →
    WritesAt Δ top (body e) e
  | .letIn p x l r, h => by
      simp only [Expr.isWellFormed, Bool.and_eq_true] at h
      obtain ⟨⟨hx, hl⟩, hr⟩ := h
      have hin : Opens " in\n" (IsToken .kwIn "in") :=
        (spells_keyword (by decide)).framed " " "\n" rfl rfl
      exact writesAt_letIn hΔ hx hin rfl (writesAt_expr hΔ hl) (writesAt_body hΔ hr)
  | .cases p s alts, h => by
      simp only [Expr.isWellFormed, Bool.and_eq_true] at h
      obtain ⟨⟨hne, hs⟩, halts⟩ := h
      have hof : Spells " of\n" (IsToken .kwOf "of") := spells_of.before_gap (g := "\n") rfl rfl
      have hbar : Opens "  | " (IsToken .bar "|") :=
        (spells_symbol (by decide)).framed "  " " " rfl rfl
      have hlines := spells_alternativesIn hΔ "\n" hbar rfl rfl rfl halts (by simpa using hne)
        (writesAt_bodies hΔ halts)
      have hbreaks := breaks_alternativesIn "  | " "\n" rfl alts
      rw [body, alternativeLines_eq halts]
      exact writesAt_cases (writesAt_expr hΔ hs) hof rfl hbreaks hlines
  | .int .., h | .bool .., h | .var .., h | .ctor .., h | .binary .., h | .cond .., h | .fn .., h
  | .app .., h | .annot .., h => writesAt_line hΔ h

/-! ## Data declarations -/

theorem spells_fields {ts : List Ty} (hts : ts.all Ty.isWellFormed = true) (hne : ts ≠ []) :
    Spells (Ty.renderFields ts) (Denotes AreAtomicTypes (List.map Ty.unplaced) ts) := by
  unfold Ty.renderFields
  induction ts with
  | nil => exact absurd rfl hne
  | cons t ts ih =>
      simp only [List.all_cons, Bool.and_eq_true] at hts
      have hfield := (spells_type hts.1).2
      cases ts with
      | nil =>
          rw [List.map_cons, List.map_nil, String.intercalate_singleton]
          refine hfield.mono ?_
          rintro us ⟨t', ht', heq⟩
          exact ⟨[t'], by simpa using AreAtomicTypes.cons ht' .nil, by simp [heq]⟩
      | cons u ts =>
          have hfields := ih hts.2 (by simp)
          rw [List.map_cons, List.map_cons, String.intercalate_cons_cons]
          have hgap : Opens " " (· = []) := opens_gap rfl
          refine ((hfield.append_opens hgap rfl).append hfields).mono ?_
          rintro _ ⟨_, vs, rfl, ⟨us, _, rfl, ⟨t', ht', heqt⟩, rfl⟩, ts', hts', heqts⟩
          refine ⟨t' :: ts', by simpa using AreAtomicTypes.cons ht' hts', ?_⟩
          rw [List.map_cons, List.map_cons, heqt, heqts]

theorem spells_declared {c : Constructor} (hname : isName c.name = true)
    (hfields : c.fields.all Ty.isWellFormed = true) :
    Spells (constructor c) fun ts => ∃ x us fields, ts = x :: us ∧ x.kind = .ident ∧
      x.text = c.name ∧ AreAtomicTypes us fields ∧
        fields.map Ty.unplaced = c.fields.map Ty.unplaced := by
  unfold constructor
  split
  · rename_i hempty
    refine (spells_name hname).mono ?_
    rintro _ ⟨x, rfl, hx, htext⟩
    exact ⟨x, [], [], rfl, hx, htext, .nil, by rw [List.isEmpty_iff.mp hempty]⟩
  · rename_i hempty
    have hgap : Opens " " (· = []) := opens_gap rfl
    have hne : c.fields ≠ [] := by simpa using hempty
    refine (((spells_name hname).append_opens hgap rfl).append (spells_fields hfields hne)).mono ?_
    rintro _ ⟨_, us, rfl, ⟨_, _, rfl, ⟨x, rfl, hx, htext⟩, rfl⟩, fields, hfields', heq⟩
    exact ⟨x, us, fields, rfl, hx, htext, hfields', heq⟩

/-- The constructors of a type are read with any table in which their names are new, and they are
added to it. -/
theorem spells_constructors {type : String} {cs : List Constructor}
    (hcs : (cs.all fun c => isName c.name && c.fields.all Ty.isWellFormed && c.type == type) = true)
    (hne : cs ≠ []) :
    Spells (" | ".intercalate (cs.map constructor)) fun ts => ∀ Δ : CtorTable,
      Δ.New (cs.map Constructor.name) →
        ∃ cs', AreConstructors type Δ ts cs' (cs'.reverse ++ Δ) ∧
          cs'.map Constructor.unplaced = cs.map Constructor.unplaced := by
  induction cs with
  | nil => exact absurd rfl hne
  | cons c cs ih =>
      simp only [List.all_cons, Bool.and_eq_true, beq_iff_eq] at hcs
      obtain ⟨⟨⟨hname, hfields⟩, htype⟩, hcs⟩ := hcs
      have hunplaced : ∀ {x : Token} {fields : List Ty}, x.text = c.name →
          fields.map Ty.unplaced = c.fields.map Ty.unplaced →
          Constructor.unplaced ⟨x.text, fields, type, x.pos⟩ = c.unplaced := by
        intro x fields htext heq
        simp only [Constructor.unplaced, htext, heq, htype]
      cases cs with
      | nil =>
          rw [List.map_cons, List.map_nil, String.intercalate_singleton]
          refine (spells_declared hname hfields).mono ?_
          rintro _ ⟨x, us, fields, rfl, hx, htext, hfields', heq⟩ Δ hfresh
          refine ⟨[⟨x.text, fields, type, x.pos⟩], ?_, by simp [hunplaced htext heq]⟩
          exact .one ⟨hx, htext ▸ (CtorTable.new_cons.mp hfresh).1⟩ hfields'
      | cons d cs =>
          rw [List.map_cons, List.map_cons, String.intercalate_cons_cons]
          have hfirst := (spells_declared hname hfields).append_opens opens_bar rfl
          refine (hfirst.append (ih hcs (by simp))).mono ?_
          rintro _ ⟨_, vs, rfl, ⟨_, _, rfl, ⟨x, us, fields, rfl, hx, htext, hfields', heq⟩,
            b, rfl, hb, -⟩, hvs⟩ Δ hfresh
          rw [List.map_cons, ← htext] at hfresh
          -- the rest is read with this constructor known, and its names are new after that as well
          obtain ⟨hnew, hrest⟩ := CtorTable.new_cons (c := ⟨x.text, fields, type, x.pos⟩).mp hfresh
          obtain ⟨cs', hcs', heqcs⟩ := hvs _ hrest
          refine ⟨⟨x.text, fields, type, x.pos⟩ :: cs', ?_, ?_⟩
          · have hx' : IsVariable Δ x := ⟨hx, hnew⟩
            simpa [CtorTable.insert] using AreConstructors.cons hx' hfields' hb hcs'
          · rw [List.map_cons, hunplaced htext heq, heqcs]
            rfl

theorem opens_dataDecl {d : DataDecl} (hd : d.isWellFormed = true) :
    Opens (dataDecl d) fun ts => ∀ Δ : CtorTable, Δ.New (d.ctors.map Constructor.name) →
        ∃ d', IsData Δ ts d' (d'.ctors.reverse ++ Δ) ∧ d'.unplaced = d.unplaced := by
  simp only [DataDecl.isWellFormed, Bool.and_eq_true] at hd
  obtain ⟨⟨hname, hne⟩, hctors⟩ := hd
  have hdata : Opens "data " (IsToken .kwData "data") :=
    (spells_keyword (by decide)).framed "" " " rfl rfl
  have hsemicolon : Opens ";\n" (IsToken .semicolon ";") :=
    (spells_symbol (by decide)).framed "" "\n" rfl rfl
  have hhead := (hdata.append (spells_name hname)).append_opens opens_assign rfl
  have hconstructors := hhead.append (spells_constructors hctors (by simpa using hne))
  refine (hconstructors.append_opens hsemicolon rfl).mono ?_
  rintro _ ⟨_, _, rfl, ⟨_, ts, rfl, ⟨_, _, rfl, ⟨_, _, rfl, ⟨k, rfl, hk, -⟩, x, rfl, hx, htext⟩,
    a, rfl, ha, -⟩, hts⟩, e, rfl, he, -⟩ Δ hfresh
  obtain ⟨cs', hcs', heq⟩ := hts Δ hfresh
  refine ⟨⟨x.text, cs', k.pos⟩, ?_, by simp only [DataDecl.unplaced, htext, heq]⟩
  simpa using IsData.mk hk hx ha (htext ▸ hcs') he

theorem map_name_eq {cs cs' : List Constructor}
    (h : cs'.map Constructor.unplaced = cs.map Constructor.unplaced) :
    cs'.map Constructor.name = cs.map Constructor.name := by
  have hname : ∀ l : List Constructor,
      l.map Constructor.name = (l.map Constructor.unplaced).map Constructor.name := by
    intro l
    rw [List.map_map]
    rfl
  rw [hname cs', h, ← hname cs]

/-- All declarations of a program, read with a table in which the names of their constructors are
new. -/
theorem opens_data {ds : List DataDecl} (hds : ds.all DataDecl.isWellFormed = true) :
    Opens (String.join (ds.map dataDecl)) fun ts => ∀ Δ : CtorTable,
      Δ.New ((ds.flatMap DataDecl.ctors).map Constructor.name) →
        ∃ ds', AreData Δ ts ds' ((ds'.flatMap DataDecl.ctors).reverse ++ Δ) ∧
          ds'.map DataDecl.unplaced = ds.map DataDecl.unplaced := by
  induction ds with
  | nil => exact (opens_gap rfl).mono fun ts hts Δ _ => ⟨[], hts ▸ .nil, rfl⟩
  | cons d ds ih =>
      simp only [List.all_cons, Bool.and_eq_true] at hds
      rw [List.map_cons, String.join_cons]
      refine ((opens_dataDecl hds.1).append_opens (ih hds.2)).mono ?_
      rintro _ ⟨ts, us, rfl, hts, hus⟩ Δ hfresh
      rw [List.flatMap_cons, List.map_append] at hfresh
      obtain ⟨hfirst, -⟩ := CtorTable.new_append.mp hfresh
      obtain ⟨d', hd', heqd⟩ := hts Δ hfirst
      have hnames : d'.ctors.map Constructor.name = d.ctors.map Constructor.name :=
        map_name_eq (congrArg DataDecl.ctors heqd)
      -- what has been read has the same names
      rw [← hnames] at hfresh
      obtain ⟨-, hfresh'⟩ := CtorTable.new_append.mp hfresh
      obtain ⟨ds', hds', heqds⟩ := hus _ hfresh'
      refine ⟨d' :: ds', ?_, by rw [List.map_cons, List.map_cons, heqd, heqds]⟩
      rw [List.flatMap_cons, List.reverse_append, List.append_assoc]
      exact .cons hd' hds'

/-! ## Programs -/

/-- Two texts with an empty line between them, unless one of them is empty. -/
theorem spells_sections {s t : String} {P R : List Token → Prop} (hs : Opens s P)
    (ht : ∀ us, P us → Spells t fun vs => R (us ++ vs)) :
    Spells ("\n".intercalate ([s, t].filter fun u => !u.isEmpty)) R := by
  -- a text that is left out for being empty spells no tokens, but may still have a say in `R`
  by_cases hempty : s = ""
  · subst hempty
    have hrest : Spells t R := ht [] hs.spells.nil_of_empty
    by_cases hempty' : t = ""
    · subst hempty'
      exact hrest
    · have hfilter : ["", t].filter (fun u => !u.isEmpty) = [t] := by simp [hempty']
      rwa [hfilter, String.intercalate_singleton]
  · by_cases hempty' : t = ""
    · subst hempty'
      have hfilter : [s, ""].filter (fun u => !u.isEmpty) = [s] := by simp [hempty]
      rw [hfilter, String.intercalate_singleton]
      refine hs.spells.mono fun us hus => ?_
      have hnil := (ht us hus).nil_of_empty
      rwa [List.append_nil] at hnil
    · have hfilter : [s, t].filter (fun u => !u.isEmpty) = [s, t] := by simp [hempty, hempty']
      rw [hfilter, String.intercalate_cons_cons, String.intercalate_singleton, String.append_assoc]
      exact hs.bind fun us hus => (ht us hus).after_gap rfl

/-- The constructors that are read from the text of a program are its own up to places. -/
theorem alike_of_data {ds ds' : List DataDecl}
    (h : ds'.map DataDecl.unplaced = ds.map DataDecl.unplaced) :
    CtorTable.Alike ((ds.flatMap DataDecl.ctors).reverse ++ Γ)
      ((ds'.flatMap DataDecl.ctors).reverse ++ Γ) := by
  have hctors : ∀ l : List DataDecl, (l.flatMap DataDecl.ctors).map Constructor.unplaced =
      (l.map DataDecl.unplaced).flatMap DataDecl.ctors := by
    intro l
    rw [List.map_flatMap, List.flatMap_map]
    rfl
  refine CtorTable.alike_of_map_eq ?_
  rw [List.map_append, List.map_append, List.map_reverse, List.map_reverse, hctors, h, ← hctors]

theorem spells_program {p : Program} (hp : p.IsWellFormedIn Γ) :
    Spells (program p) fun ts => ∃ us vs Δ ds e, ts = us ++ vs ∧ AreData Γ us ds Δ ∧
      IsBody Δ true vs e ∧ Program.unplaced ⟨[], ds, e⟩ = p.unplaced := by
  obtain ⟨imports, data, body⟩ := p
  obtain ⟨rfl, hdata, hnew, hbody⟩ := hp
  refine spells_sections (opens_data hdata) fun us hus => ?_
  obtain ⟨ds, hds, heqds⟩ := hus Γ hnew
  have hunplaced : ∀ {e : Expr}, e.unplaced = body.unplaced →
      Program.unplaced ⟨[], ds, e⟩ = Program.unplaced ⟨[], data, body⟩ := by
    intro e heq
    simp only [Program.unplaced, heqds, heq]
  rcases hbody with rfl | hwf
  · refine spells_empty.mono ?_
    rintro _ rfl
    exact ⟨us, [], _, ds, .missing, rfl, hds, .missing, hunplaced rfl⟩
  · have hmissing : body.isMissing = false := by
      cases body <;> simp_all [Expr.isMissing, Expr.isWellFormed]
    simp only [hmissing]
    refine (writesAt_body (alike_of_data heqds) hwf).mono ?_
    rintro vs ⟨e, ⟨o, he⟩, heqe⟩
    exact ⟨us, vs, _, ds, e, rfl, hds, .expr he, hunplaced heqe⟩

end FunLang.Layout
