import FunLang.Import.Loading
import FunLang.Proofs.Parser.Acceptance
import FunLang.Proofs.Syntax.Tables

set_option autoImplicit false

/-!
# The constructors of one file

A file is read with the constructors that its imports see. If nothing is an error but that names of
constructors are not unique, this is reported exactly if two declarations of one name are among those
that the imports see and those of the file itself (`silent_loadFile_iff`). If it is not reported, the
file sees all of them, and it is read with the table in which each name stands for its declaration
(`readsWith_loadFile`).
-/

namespace FunLang.Import

/-! ## Declarations -/

/-- Different declarations have different names. -/
def Distinct (cs : List Declared) : Prop :=
  ∀ c ∈ cs, ∀ c' ∈ cs, c.ctor.name = c'.ctor.name → c = c'

theorem Distinct.mono {cs cs' : List Declared} (h : Distinct cs') (hsub : cs ⊆ cs') : Distinct cs :=
  fun c hc c' hc' => h c (hsub hc) c' (hsub hc')

/-- Declarations are joined if no name stands on both sides. -/
theorem Distinct.append {cs cs' : List Declared} (h : Distinct cs) (h' : Distinct cs')
    (hne : ∀ c ∈ cs, ∀ c' ∈ cs', c.ctor.name ≠ c'.ctor.name) : Distinct (cs ++ cs') := by
  intro c hc c' hc' hname
  rcases List.mem_append.mp hc with hc | hc <;> rcases List.mem_append.mp hc' with hc' | hc'
  · exact h c hc c' hc' hname
  · exact absurd hname (hne c hc c' hc')
  · exact absurd hname.symm (hne c' hc' c hc)
  · exact h' c hc c' hc' hname

theorem mem_declaredBy_iff {file : Path} {p : Program} {c : Declared} :
    c ∈ declaredBy file p ↔ c.file = file ∧ p.ctors[c.number]? = some c.ctor := by
  constructor
  · intro hc
    obtain ⟨⟨ctor, n⟩, hmem, rfl⟩ := List.mem_map.mp hc
    exact ⟨rfl, List.mem_zipIdx_iff_getElem?.mp hmem⟩
  · rintro ⟨rfl, hc⟩
    exact List.mem_map.mpr ⟨(c.ctor, c.number), List.mem_zipIdx_iff_getElem?.mpr hc, rfl⟩

theorem map_ctor_declaredBy (file : Path) (p : Program) :
    (declaredBy file p).map (·.ctor) = p.ctors := by
  simp only [declaredBy, List.map_map]
  exact List.zipIdx_map_fst 0 p.ctors

/-- The declarations of one file are told apart by their numbers. -/
theorem distinct_declaredBy_iff (file : Path) (p : Program) :
    Distinct (declaredBy file p) ↔ (p.ctors.map (·.name)).Nodup := by
  constructor
  · intro h
    refine List.nodup_iff_getElem?_ne_getElem?.mpr fun i j hij hj heq => ?_
    rw [List.length_map] at hj
    have hi : i < p.ctors.length := by omega
    have hname : p.ctors[i].name = p.ctors[j].name := by simpa [hi, hj] using heq
    have hsame := h ⟨p.ctors[i], file, i⟩ (mem_declaredBy_iff.mpr ⟨rfl, by simp [hi]⟩)
      ⟨p.ctors[j], file, j⟩ (mem_declaredBy_iff.mpr ⟨rfl, by simp [hj]⟩) hname
    exact absurd (congrArg Declared.number hsame) (Nat.ne_of_lt hij)
  · rintro h ⟨c, q, i⟩ hc ⟨c', q', j⟩ hc' hname
    obtain ⟨rfl, hi⟩ := mem_declaredBy_iff.mp hc
    obtain ⟨rfl, hj⟩ := mem_declaredBy_iff.mp hc'
    have hlt : i < (p.ctors.map (·.name)).length := by
      rw [List.length_map]
      exact (List.getElem?_eq_some_iff.mp hi).1
    have hij : i = j := (List.getElem?_inj hlt h).mp (by simp_all)
    subst hij
    obtain rfl : c = c' := Option.some.inj (hi.symm.trans hj)
    rfl

/-- A file repeats no name if its names are different from each other and from those that are known. -/
theorem not_repeats_iff {Γ : CtorTable} {cs : List Constructor} :
    ¬ Parser.Repeats Γ cs ↔ Γ.New (cs.map (·.name)) := by
  induction cs generalizing Γ with
  | nil => simp [Parser.Repeats, CtorTable.new_nil]
  | cons c cs ih =>
      rw [Parser.Repeats, not_or, Option.not_isSome_iff_eq_none, ih, List.map_cons, CtorTable.new_cons]

/-- In the table of different declarations a name stands for the declaration that has it. -/
theorem Distinct.find?_iff {cs : List Declared} (h : Distinct cs) {x : String} {ctor : Constructor} :
    CtorTable.find? (cs.map (·.ctor)).reverse x = some ctor ↔
      ∃ c, c ∈ cs ∧ c.ctor = ctor ∧ ctor.name = x := by
  have hmem : ∀ ctor, ctor ∈ (cs.map (·.ctor)).reverse ↔ ∃ c ∈ cs, c.ctor = ctor := by simp
  rw [CtorTable.find?_eq_some_iff, hmem]
  · exact ⟨fun ⟨⟨c, hc, heq⟩, hx⟩ => ⟨c, hc, heq, hx⟩, fun ⟨c, hc, heq, hx⟩ => ⟨⟨c, hc, heq⟩, hx⟩⟩
  · intro ctor hctor ctor' hctor' hname
    obtain ⟨c, hc, rfl⟩ := (hmem ctor).mp hctor
    obtain ⟨c', hc', rfl⟩ := (hmem ctor').mp hctor'
    rw [h c hc c' hc' hname]

/-! ## Constructors of the imports -/

/-- What has been taken in of some declarations. Those that are left out are conflicts. -/
structure Inherited.Gathers (i : Inherited) (cs : List Declared) : Prop where
  sub : i.ctors ⊆ cs
  distinct : Distinct i.ctors
  complete : i.conflicts = [] → cs ⊆ i.ctors
  silent : Distinct cs → i.conflicts = []

theorem Inherited.Gathers.add {i : Inherited} {cs : List Declared} (h : i.Gathers cs) (c : Declared) :
    (i.add c).Gathers (cs ++ [c]) := by
  have hsub : i.ctors ⊆ cs ++ [c] := fun c' hc' => List.mem_append_left _ (h.sub hc')
  have hsilent : Distinct (cs ++ [c]) → i.conflicts = [] := fun hd =>
    h.silent (hd.mono (List.subset_append_left cs [c]))
  unfold Inherited.add
  cases hfind : i.ctors.find? (·.ctor.name == c.ctor.name) with
  | none =>
      have hnew : ∀ c' ∈ i.ctors, c'.ctor.name ≠ c.ctor.name := by simpa using hfind
      refine ⟨?_, h.distinct.append (by simp [Distinct]) (by simpa using hnew), ?_, hsilent⟩
      · exact List.append_subset.mpr ⟨hsub, List.subset_append_right cs [c]⟩
      · intro hnone
        exact List.append_subset.mpr ⟨fun c' hc' => List.mem_append_left _ (h.complete hnone hc'),
          List.subset_append_right i.ctors [c]⟩
  | some first =>
      have hfirst : first ∈ i.ctors := List.mem_of_find?_eq_some hfind
      have hname : first.ctor.name = c.ctor.name := by simpa using List.find?_some hfind
      by_cases hsame : first = c
      · subst hsame
        simp only [↓reduceIte]
        refine ⟨hsub, h.distinct, fun hnone => ?_, hsilent⟩
        exact List.append_subset.mpr ⟨h.complete hnone, by simpa using hfirst⟩
      · simp only [hsame, ↓reduceIte]
        refine ⟨hsub, h.distinct, fun hnone => by simp at hnone, fun hd => ?_⟩
        exact absurd (hd first (hsub hfirst) c (by simp) hname) hsame

theorem Inherited.Gathers.foldl {i : Inherited} {cs : List Declared} (h : i.Gathers cs)
    (cs' : List Declared) : (cs'.foldl Inherited.add i).Gathers (cs ++ cs') := by
  induction cs' generalizing i cs with
  | nil => simpa using h
  | cons c cs' ih => simpa using ih (h.add c)

/-- What the modules of the imports see. -/
def imported (ms : List Module) (f : SourceFile) : List Declared :=
  (modulesAt ms f.imports).flatMap (·.visible)

variable {entry : Path} {ms : List Module} {f : SourceFile}

theorem gathers_inherited (ms : List Module) (f : SourceFile) :
    (inherited (modulesAt ms f.imports)).Gathers (imported ms f) := by
  have hstart : Inherited.Gathers ⟨[], []⟩ [] := ⟨by simp, by simp [Distinct], by simp, by simp⟩
  exact hstart.foldl (imported ms f)

/-! ## Messages -/

/-- The message that two declarations of a constructor are seen, through imports or in the file itself. -/
def IsAboutConstructor (d : Diagnostic) : Prop := ∃ name : String,
  d.message = s!"constructor '{name}' is declared by more than one imported file" ∨
    d.message = s!"constructor '{name}' is already declared"

theorem not_isAboutConstructor_of_isComplaint {d : Diagnostic} (h : Parser.IsComplaint d.message) :
    ¬ IsAboutConstructor d := by
  rintro ⟨name, hname | hname⟩
  · exact h (by rw [hname]; simp [toString])
  · exact h (by rw [hname]; simp [toString])

/-- Messages about constructors are tolerated. -/
def aboutConstructors : Parser.Tolerance :=
  ⟨IsAboutConstructor, fun _ _ hm => not_isAboutConstructor_of_isComplaint hm⟩

theorem severity_stamp (file : String) (d : Diagnostic) : (d.stamp file).severity = d.severity := by
  unfold Diagnostic.stamp
  split <;> rfl

theorem isAboutConstructor_stamp_iff {file : String} {d : Diagnostic} :
    IsAboutConstructor (d.stamp file) ↔ IsAboutConstructor d := by
  unfold Diagnostic.stamp
  split <;> rfl

/-- No message is about constructors. -/
def Silent (ds : List Diagnostic) : Prop := ∀ d ∈ ds, ¬ IsAboutConstructor d

/-- Every error is about constructors. -/
def Confined (ds : List Diagnostic) : Prop := ∀ d ∈ ds, d.severity = .error → IsAboutConstructor d

theorem silent_append_iff {ds ds' : List Diagnostic} : Silent (ds ++ ds') ↔ Silent ds ∧ Silent ds' :=
  List.forall_mem_append

theorem silent_conflictDiags_iff {file : Path} {names : List String} :
    Silent (conflictDiags file names) ↔ names = [] := by
  constructor
  · intro h
    refine List.eq_nil_iff_forall_not_mem.mpr fun name hname => ?_
    exact h _ (List.mem_map.mpr ⟨name, hname, rfl⟩) ⟨name, Or.inl rfl⟩
  · rintro rfl
    simp [Silent, conflictDiags]

theorem silent_ignoredBody (file : Path) (p : Program) : Silent [ignoredBody file p] := by
  intro d hd
  rw [List.mem_singleton.mp hd]
  exact not_isAboutConstructor_of_isComplaint (by simp [ignoredBody, Parser.IsComplaint,
    Diagnostic.withHint, Diagnostic.inFile, Diagnostic.warning])

/-! ## Reading a file -/

/-- The table with which a file is read. -/
def tableOf (ms : List Module) (f : SourceFile) : CtorTable :=
  .ofList ((inherited (modulesAt ms f.imports)).ctors.map (·.ctor))

/-- What a file is read as. -/
def reading (ms : List Module) (f : SourceFile) : Program × Parser.State :=
  Parser.parseProgram f.source (tableOf ms f)

/-- The constructors that a file declares. -/
def own (ms : List Module) (f : SourceFile) : List Declared := declaredBy f.path (reading ms f).1

theorem loadFile_eq (entry : Path) (ms : List Module) (f : SourceFile) : loadFile entry ms f =
    (⟨f.path, (reading ms f).1, (inherited (modulesAt ms f.imports)).ctors ++ own ms f⟩,
      conflictDiags f.path (inherited (modulesAt ms f.imports)).conflicts ++
        (reading ms f).2.diags.map (Diagnostic.stamp f.path.render) ++
        if f.path = entry ∨ (reading ms f).1.body.isMissing then []
        else [ignoredBody f.path (reading ms f).1]) := by
  simp only [loadFile, own, reading, tableOf]
  congr

theorem path_loadFile (entry : Path) (ms : List Module) (f : SourceFile) :
    (loadFile entry ms f).1.path = f.path := by
  rw [loadFile_eq]

theorem visible_loadFile (entry : Path) (ms : List Module) (f : SourceFile) :
    (loadFile entry ms f).1.visible = (inherited (modulesAt ms f.imports)).ctors ++ own ms f := by
  rw [loadFile_eq]

theorem program_loadFile (entry : Path) (ms : List Module) (f : SourceFile) :
    (loadFile entry ms f).1.program = (reading ms f).1 := by
  rw [loadFile_eq]

/-- A module holds nothing but what its imports hold and its own constructors. -/
theorem visible_subset (entry : Path) (ms : List Module) (f : SourceFile) :
    (loadFile entry ms f).1.visible ⊆ imported ms f ++ own ms f := by
  rw [visible_loadFile]
  exact List.append_subset.mpr ⟨List.subset_append_of_subset_left _ (gathers_inherited ms f).sub,
    List.subset_append_right _ _⟩

/-- Without conflicts it holds all of this. -/
theorem subset_visible (entry : Path) (h : (inherited (modulesAt ms f.imports)).conflicts = []) :
    imported ms f ++ own ms f ⊆ (loadFile entry ms f).1.visible := by
  rw [visible_loadFile]
  exact List.append_subset.mpr ⟨List.subset_append_of_subset_left _
    ((gathers_inherited ms f).complete h), List.subset_append_right _ _⟩

theorem within_reading (h : Confined (loadFile entry ms f).2) :
    (reading ms f).2.Within aboutConstructors := by
  intro d hd
  have hmem : d.stamp f.path.render ∈ (loadFile entry ms f).2 := by
    rw [loadFile_eq]
    exact List.mem_append_left _ (List.mem_append_right _ (List.mem_map_of_mem hd))
  have herror : d.severity = .error :=
    (Parser.consistent_parseProgram aboutConstructors f.source (tableOf ms f)).errors d hd
  exact isAboutConstructor_stamp_iff.mp (h _ hmem ((severity_stamp _ d).trans herror))

/-- Names of constructors are reported if the imports are in conflict or the file repeats a name. -/
theorem silent_loadFile_iff_not_repeats (h : Confined (loadFile entry ms f).2) :
    Silent (loadFile entry ms f).2 ↔ (inherited (modulesAt ms f.imports)).conflicts = [] ∧
      ¬ Parser.Repeats (tableOf ms f) (reading ms f).1.ctors := by
  have hwithin := within_reading h
  have hreading : Silent ((reading ms f).2.diags.map (Diagnostic.stamp f.path.render)) ↔
      (reading ms f).2.diags = [] := by
    constructor
    · intro hsilent
      refine List.eq_nil_iff_forall_not_mem.mpr fun d hd => ?_
      exact hsilent _ (List.mem_map_of_mem hd) (isAboutConstructor_stamp_iff.mpr (hwithin d hd))
    · intro hnil
      simp [hnil, Silent]
  have hbody : Silent (if f.path = entry ∨ (reading ms f).1.body.isMissing then []
      else [ignoredBody f.path (reading ms f).1]) := by
    split
    · simp [Silent]
    · exact silent_ignoredBody _ _
  have hrepeats : (reading ms f).2.diags = [] ↔
      ¬ Parser.Repeats (tableOf ms f) (reading ms f).1.ctors :=
    Parser.diags_parseProgram_eq_nil_iff hwithin
  rw [loadFile_eq, silent_append_iff, silent_append_iff, silent_conflictDiags_iff, hreading, hrepeats]
  exact and_iff_left hbody

/-- A file repeats no name if different names are declared, none of which is known through the imports. -/
theorem not_repeats_reading_iff : ¬ Parser.Repeats (tableOf ms f) (reading ms f).1.ctors ↔
    Distinct (own ms f) ∧ ∀ c ∈ (inherited (modulesAt ms f.imports)).ctors, ∀ c' ∈ own ms f,
      c.ctor.name ≠ c'.ctor.name := by
  have hctors : (own ms f).map (·.ctor) = (reading ms f).1.ctors := map_ctor_declaredBy _ _
  rw [not_repeats_iff, own, distinct_declaredBy_iff, ← own, tableOf, CtorTable.ofList_eq_reverse]
  constructor
  · rintro ⟨hnodup, hunknown⟩
    refine ⟨hnodup, fun c hc c' hc' hname => ?_⟩
    refine hunknown c'.ctor.name ?_ (by simpa using ⟨c, hc, hname⟩)
    rw [← hctors]
    exact List.mem_map_of_mem (List.mem_map_of_mem hc')
  · rintro ⟨hnodup, hne⟩
    refine ⟨hnodup, fun x hx hknown => ?_⟩
    rw [← hctors, List.map_map] at hx
    obtain ⟨c', hc', rfl⟩ := List.mem_map.mp hx
    obtain ⟨c, hc, hname⟩ : ∃ c ∈ (inherited (modulesAt ms f.imports)).ctors,
        c.ctor.name = c'.ctor.name := by simpa using hknown
    exact hne c hc c' hc' hname

/-- A file that repeats no name sees different names only. -/
theorem distinct_visible (entry : Path) (h : ¬ Parser.Repeats (tableOf ms f) (reading ms f).1.ctors) :
    Distinct (loadFile entry ms f).1.visible := by
  obtain ⟨hown, hne⟩ := not_repeats_reading_iff.mp h
  rw [visible_loadFile]
  exact (gathers_inherited ms f).distinct.append hown hne

/-- If none of the constructors that the imports see is from the file itself, then names of constructors
are reported exactly if two of those that there are to see have the same name. -/
theorem silent_loadFile_iff (h : Confined (loadFile entry ms f).2)
    (hforeign : ∀ c ∈ imported ms f, c.file ≠ f.path) :
    Silent (loadFile entry ms f).2 ↔ Distinct (imported ms f ++ own ms f) := by
  have hgathers := gathers_inherited ms f
  rw [silent_loadFile_iff_not_repeats h]
  constructor
  · rintro ⟨hnone, hrepeats⟩
    exact (distinct_visible entry hrepeats).mono (subset_visible entry hnone)
  · intro hdistinct
    refine ⟨hgathers.silent (hdistinct.mono (List.subset_append_left _ _)), ?_⟩
    refine not_repeats_reading_iff.mpr ⟨hdistinct.mono (List.subset_append_right _ _), ?_⟩
    intro c hc c' hc' hname
    have hsame := hdistinct c (List.mem_append_left _ (hgathers.sub hc)) c'
      (List.mem_append_right _ hc') hname
    exact hforeign c (hgathers.sub hc) (hsame ▸ (mem_declaredBy_iff.mp hc').1)

/-- A program is what a text says if its names stand for the constructors that are known. -/
def ReadsWith (source : List UInt8) (p : Program) (known : Declared → Prop) : Prop :=
  ∃ Γ Δ ts us vs z, Lexer.tokenize source = ts ++ (us ++ (vs ++ [z])) ∧ z.kind = .eof ∧
    Grammar.AreImports ts p.imports ∧ Grammar.AreData Γ us p.data Δ ∧ Grammar.IsBody Δ true vs p.body ∧
    ∀ x ctor, Δ.find? x = some ctor ↔ ∃ c, known c ∧ c.ctor = ctor ∧ ctor.name = x

/-- A file about whose constructors nothing is reported sees all that its imports see, and is read with
what it sees. -/
theorem readsWith_loadFile (h : Confined (loadFile entry ms f).2)
    (hsilent : Silent (loadFile entry ms f).2) :
    imported ms f ++ own ms f ⊆ (loadFile entry ms f).1.visible ∧
      ReadsWith f.source (loadFile entry ms f).1.program (· ∈ (loadFile entry ms f).1.visible) := by
  obtain ⟨hnone, hrepeats⟩ := (silent_loadFile_iff_not_repeats h).mp hsilent
  constructor
  · exact subset_visible entry hnone
  · obtain ⟨ts, us, vs, z, htokens, hz, his, hdeclares, hds, hbody⟩ :=
      Parser.parseProgram_within true (within_reading h)
    rw [program_loadFile]
    refine ⟨_, _, ts, us, vs, z, htokens, hz, his, hds hrepeats, hbody, fun x ctor => ?_⟩
    have hctors : (reading ms f).2.ctors = ((loadFile entry ms f).1.visible.map (·.ctor)).reverse := by
      have hown : (own ms f).map (·.ctor) = (reading ms f).1.ctors := map_ctor_declaredBy _ _
      have htable : (reading ms f).2.ctors = (reading ms f).1.ctors.reverse ++ tableOf ms f :=
        hdeclares.ctors
      rw [htable, visible_loadFile, List.map_append, List.reverse_append, hown, tableOf,
        CtorTable.ofList_eq_reverse]
    exact hctors ▸ (distinct_visible entry hrepeats).find?_iff

end FunLang.Import
