import FunLang.Proofs.Import.Constructors
import FunLang.Proofs.Import.Loading

set_option autoImplicit false

/-!
# The constructors that a file sees

A file sees the constructors that are declared in it and in the files that it imports, directly or
through others (`Sees`). Whatever the imports are, if only there are no cycles, loading reports a
constructor exactly if some file sees two declarations of its name, and if it reports none each file is
read with the constructors that it sees (`load_reports_iff_seesTwice`).

The constructors of a module are gathered from those of its imports, and those in conflict are dropped
on the way. So a module holds only constructors that its file sees (`Loaded.sees_of_mem`), but all of
them only if nothing has been reported for the files below it (`Loaded.mem_of_sees`).
-/

namespace FunLang.Import

/-- A constructor is declared in a file or in one that it imports, directly or through others. -/
def Sees (g : Graph) (ms : List Module) (p : Path) (c : Declared) : Prop :=
  ∃ m ∈ ms, Relation.ReflTransGen g.Imports p m.path ∧ c ∈ declaredBy m.path m.program

/-- Two declarations of one name are seen. A declaration that is reached in several ways is one. -/
def SeesTwice (g : Graph) (ms : List Module) (p : Path) : Prop :=
  ∃ c c', Sees g ms p c ∧ Sees g ms p c' ∧ c.ctor.name = c'.ctor.name ∧ c ≠ c'

/-- Files that have been loaded, with their modules and the messages about them. -/
structure Loaded (g : Graph) (entry : Path) (files : List SourceFile) (ms : List Module)
    (ds : List Diagnostic) : Prop where
  arranged : Arranged files
  imports : ∀ f ∈ files, g.importsOf f.path = f.imports
  modules : ms = files.map fun f => (loadFile entry ms f).1
  diags : ds = files.flatMap fun f => (loadFile entry ms f).2

variable {g : Graph} {entry : Path} {files : List SourceFile} {ms : List Module}
  {ds : List Diagnostic} {f : SourceFile} {c : Declared}

/-- What is seen is seen in the file that declares it. -/
theorem Sees.reaches {p : Path} (h : Sees g ms p c) : Relation.ReflTransGen g.Imports p c.file := by
  obtain ⟨m, -, hreach, hc⟩ := h
  rwa [(mem_declaredBy_iff.mp hc).1]

namespace Loaded

theorem mem_iff (h : Loaded g entry files ms ds) {m : Module} :
    m ∈ ms ↔ ∃ f ∈ files, (loadFile entry ms f).1 = m := by
  rw [← List.mem_map, ← h.modules]

theorem paths_eq (h : Loaded g entry files ms ds) : ms.map (·.path) = files.map (·.path) := by
  have hpaths := congrArg (List.map (·.path)) h.modules
  rw [hpaths, List.map_map]
  exact List.map_congr_left fun f _ => path_loadFile entry ms f

theorem exists_file_iff (h : Loaded g entry files ms ds) {P : Path → Prop} :
    (∃ f ∈ files, P f.path) ↔ ∃ m ∈ ms, P m.path := by
  constructor
  · rintro ⟨f, hf, hP⟩
    exact ⟨_, h.mem_iff.mpr ⟨f, hf, rfl⟩, by rwa [path_loadFile]⟩
  · rintro ⟨m, hm, hP⟩
    obtain ⟨f, hf, rfl⟩ := h.mem_iff.mp hm
    exact ⟨f, hf, by rwa [path_loadFile] at hP⟩

theorem mem_imported_iff (h : Loaded g entry files ms ds) : c ∈ imported ms f ↔
    ∃ f' ∈ files, f'.path ∈ f.imports ∧ c ∈ (loadFile entry ms f').1.visible := by
  have hnodup : (ms.map (·.path)).Nodup := h.paths_eq ▸ h.arranged.nodup
  unfold imported
  rw [List.mem_flatMap]
  constructor
  · rintro ⟨m, hm, hc⟩
    obtain ⟨hm, hp⟩ := (mem_modulesAt_iff hnodup).mp hm
    obtain ⟨f', hf', rfl⟩ := h.mem_iff.mp hm
    exact ⟨f', hf', path_loadFile entry ms f' ▸ hp, hc⟩
  · rintro ⟨f', hf', hp, hc⟩
    refine ⟨_, (mem_modulesAt_iff hnodup).mpr ⟨h.mem_iff.mpr ⟨f', hf', rfl⟩, ?_⟩, hc⟩
    rwa [path_loadFile]

/-- A file sees its own constructors and what its imports see. -/
theorem sees_iff (h : Loaded g entry files ms ds) (hf : f ∈ files) : Sees g ms f.path c ↔
    c ∈ own ms f ∨ ∃ f' ∈ files, f'.path ∈ f.imports ∧ Sees g ms f'.path c := by
  have hown : own ms f = declaredBy (loadFile entry ms f).1.path (loadFile entry ms f).1.program := by
    rw [path_loadFile, program_loadFile, own]
  constructor
  · rintro ⟨m, hm, hreach, hc⟩
    rcases Relation.ReflTransGen.cases_head hreach with hpath | ⟨q, hq, hreach⟩
    · obtain ⟨f', hf', rfl⟩ := h.mem_iff.mp hm
      obtain rfl : f = f' := by
        rw [path_loadFile] at hpath
        exact List.inj_on_of_nodup_map h.arranged.nodup hf hf' hpath
      exact Or.inl (hown ▸ hc)
    · rw [Graph.Imports, h.imports f hf] at hq
      obtain ⟨f', hf', rfl⟩ := List.mem_map.mp (h.arranged.mem_of_imports hf hq)
      exact Or.inr ⟨f', hf', hq, m, hm, hreach, hc⟩
  · rintro (hc | ⟨f', hf', hp, m, hm, hreach, hc⟩)
    · refine ⟨_, h.mem_iff.mpr ⟨f, hf, rfl⟩, ?_, hown ▸ hc⟩
      rw [path_loadFile]
    · refine ⟨m, hm, hreach.head ?_, hc⟩
      rwa [Graph.Imports, h.imports f hf]

/-- Whatever is there for a module to hold its file sees. -/
theorem sees_of_mem (h : Loaded g entry files ms ds) :
    ∀ f ∈ files, ∀ c ∈ imported ms f ++ own ms f, Sees g ms f.path c := by
  refine h.arranged.induct fun f hf ih c hc => (h.sees_iff hf).mpr ?_
  rcases List.mem_append.mp hc with hc | hc
  · obtain ⟨f', hf', hp, hc⟩ := h.mem_imported_iff.mp hc
    exact Or.inr ⟨f', hf', hp, ih f' hf' hp c (visible_subset entry ms f' hc)⟩
  · exact Or.inl hc

/-- If modules hold what is there for them, it is all that their files see. -/
theorem mem_of_sees (h : Loaded g entry files ms ds)
    (hkeeps : ∀ f ∈ files, imported ms f ++ own ms f ⊆ (loadFile entry ms f).1.visible) :
    ∀ f ∈ files, ∀ c, Sees g ms f.path c → c ∈ imported ms f ++ own ms f := by
  refine h.arranged.induct fun f hf ih c hc => ?_
  rcases (h.sees_iff hf).mp hc with hc | ⟨f', hf', hp, hc⟩
  · exact List.mem_append_right _ hc
  · have hvisible : c ∈ (loadFile entry ms f').1.visible := hkeeps f' hf' (ih f' hf' hp c hc)
    exact List.mem_append_left _ (h.mem_imported_iff.mpr ⟨f', hf', hp, hvisible⟩)

/-- Without cycles nothing comes back to the file that declares it. -/
theorem file_ne_of_mem_imported (h : Loaded g entry files ms ds)
    (hacyclic : ∀ p, ¬ Relation.TransGen g.Imports p p) (hf : f ∈ files) (hc : c ∈ imported ms f) :
    c.file ≠ f.path := by
  intro hfile
  obtain ⟨f', hf', hp, hc⟩ := h.mem_imported_iff.mp hc
  have himports : g.Imports f.path f'.path := by rwa [Graph.Imports, h.imports f hf]
  have hreach := (h.sees_of_mem f' hf' c (visible_subset entry ms f' hc)).reaches
  rw [hfile] at hreach
  exact hacyclic f.path (Relation.TransGen.head'_iff.mpr ⟨f'.path, himports, hreach⟩)

theorem forall_diags_iff (h : Loaded g entry files ms ds) {P : Diagnostic → Prop} :
    (∀ d ∈ ds, P d) ↔ ∀ f ∈ files, ∀ d ∈ (loadFile entry ms f).2, P d := by
  rw [h.diags, List.forall_mem_flatMap]

/-- Constructors are reported exactly if some file sees two declarations of one name. -/
theorem silent_iff (h : Loaded g entry files ms ds)
    (hacyclic : ∀ p, ¬ Relation.TransGen g.Imports p p) (hconfined : Confined ds) :
    Silent ds ↔ ∀ f ∈ files, ¬ SeesTwice g ms f.path := by
  have hconfined := h.forall_diags_iff.mp hconfined
  have hfile : ∀ f ∈ files, Silent (loadFile entry ms f).2 ↔ Distinct (imported ms f ++ own ms f) :=
    fun f hf => silent_loadFile_iff (hconfined f hf) fun c hc =>
      h.file_ne_of_mem_imported hacyclic hf hc
  constructor
  · intro hsilent f hf
    have hsilent := h.forall_diags_iff.mp hsilent
    have hmem := h.mem_of_sees fun f hf => (readsWith_loadFile (hconfined f hf) (hsilent f hf)).1
    rintro ⟨c, c', hc, hc', hname, hne⟩
    exact hne ((hfile f hf).mp (hsilent f hf) c (hmem f hf c hc) c' (hmem f hf c' hc') hname)
  · intro honce
    refine h.forall_diags_iff.mpr fun f hf => (hfile f hf).mpr fun c hc c' hc' hname => ?_
    by_contra hne
    exact honce f hf ⟨c, c', h.sees_of_mem f hf c hc, h.sees_of_mem f hf c' hc', hname, hne⟩

/-- If no constructor is reported, each file is read with the constructors that it sees. -/
theorem readsWith (h : Loaded g entry files ms ds) (hconfined : Confined ds) (hsilent : Silent ds)
    (hf : f ∈ files) : ReadsWith f.source (loadFile entry ms f).1.program (Sees g ms f.path) := by
  have hread : ∀ f ∈ files, _ := fun f hf =>
    readsWith_loadFile (h.forall_diags_iff.mp hconfined f hf) (h.forall_diags_iff.mp hsilent f hf)
  have hsees : ∀ c, c ∈ (loadFile entry ms f).1.visible ↔ Sees g ms f.path c := fun c =>
    ⟨fun hc => h.sees_of_mem f hf c (visible_subset entry ms f hc), fun hc =>
      (hread f hf).1 (h.mem_of_sees (fun f hf => (hread f hf).1) f hf c hc)⟩
  simpa only [hsees] using (hread f hf).2

end Loaded

/-- Loading the files of a search in their order. -/
theorem loaded_inOrder {fs : FileSystem} {d : Discovery} {order : List Path} (hd : d.Reflects fs [])
    (horder : d.graph.Ordered order) (entry : Path) :
    Loaded d.graph entry (d.inOrder order) (load entry (d.inOrder order)).1
      (load entry (d.inOrder order)).2 := by
  have harranged := hd.arranged horder
  obtain ⟨hmodules, hdiags⟩ := load_eq entry harranged
  exact ⟨harranged, fun f hf => importsOf_graph_eq (mem_inOrder_iff.mp hf).2, hmodules, hdiags⟩

/-- The files of a program without cycles of imports are all loaded. If every error is about constructors,
there is one exactly if some file sees two declarations of one name. If there is none, each file is read so
that its names are constructors exactly if it sees their declarations, and stand for these. -/
theorem load_reports_iff_seesTwice (fs : FileSystem) (entry : Path)
    (hread : (discover fs entry).unreadable = none)
    (hacyclic : ∀ p, ¬ Relation.TransGen (discover fs entry).graph.Imports p p) :
    ∃ order ms ds, (discover fs entry).graph.order entry = .ok order ∧
      load entry ((discover fs entry).inOrder order) = (ms, ds) ∧
      (∀ p, Relation.ReflTransGen (discover fs entry).graph.Imports entry p → ∃ m ∈ ms, m.path = p) ∧
      (Confined ds →
        ((∃ d ∈ ds, IsAboutConstructor d) ↔
          ∃ m ∈ ms, SeesTwice (discover fs entry).graph ms m.path) ∧
        ((∀ d ∈ ds, ¬ IsAboutConstructor d) → ∀ m ∈ ms, ∃ source, fs.read m.path = .ok source ∧
          ReadsWith source m.program (Sees (discover fs entry).graph ms m.path))) := by
  obtain ⟨hd, hentry⟩ := discover_spec hread
  obtain ⟨order, horder, hordered, hmem⟩ := Graph.exists_order hacyclic entry
  have hloaded := loaded_inOrder hd hordered entry
  generalize hload : load entry ((discover fs entry).inOrder order) = r at hloaded
  obtain ⟨ms, ds⟩ := r
  refine ⟨order, ms, ds, horder, hload, fun p hp => ?_, fun hconfined => ⟨?_, fun hsilent m hm => ?_⟩⟩
  · have hpath := mem_paths_inOrder (hordered.mem_of_reaches hmem hp) (contains_of_reaches hd hentry hp)
    rw [← hloaded.paths_eq] at hpath
    exact List.mem_map.mp hpath
  · rw [← hloaded.exists_file_iff]
    have hsilent := not_congr (hloaded.silent_iff hacyclic hconfined)
    simpa [Silent] using hsilent
  · obtain ⟨f, hf, rfl⟩ := hloaded.mem_iff.mp hm
    rw [path_loadFile]
    have hsource := hd.source f (List.mem_of_find?_eq_some (mem_inOrder_iff.mp hf).2)
    exact ⟨f.source, hsource, hloaded.readsWith hconfined hsilent hf⟩

/-- Four files, two of which import the third one and are imported by the fourth. -/
def diamond : FileSystem where
  workDir := ⟨true, []⟩
  files := [
    (.ofString "/main.fun", Text.encode "import \"left.fun\"; import \"right.fun\"; L A"),
    (.ofString "/left.fun", Text.encode "import \"base.fun\"; data U = L T;"),
    (.ofString "/right.fun", Text.encode "import \"base.fun\";"),
    (.ofString "/base.fun", Text.encode "data T = A;")]
  directories := []

theorem load_reports_iff_seesTwice_diamond :
    (discover diamond (.ofString "/main.fun")).unreadable = none ∧
    (∀ p, ¬ Relation.TransGen (discover diamond (.ofString "/main.fun")).graph.Imports p p) ∧
    ∃ order ms, (discover diamond (.ofString "/main.fun")).graph.order (.ofString "/main.fun") = .ok order ∧
      load (.ofString "/main.fun") ((discover diamond (.ofString "/main.fun")).inOrder order) = (ms, []) ∧
      (∀ m ∈ ms, ¬ SeesTwice (discover diamond (.ofString "/main.fun")).graph ms m.path) ∧
      ∀ m ∈ ms, ∃ source, diamond.read m.path = .ok source ∧
        ReadsWith source m.program (Sees (discover diamond (.ofString "/main.fun")).graph ms m.path) := by
  have hread : (discover diamond (.ofString "/main.fun")).unreadable = none := by decide +kernel
  have hacyclic : ∀ p, ¬ Relation.TransGen (discover diamond (.ofString "/main.fun")).graph.Imports p p :=
    Graph.acyclic_of_rank
      (show ∀ p ∈ (discover diamond (.ofString "/main.fun")).graph.map Prod.fst,
          ∀ q ∈ (discover diamond (.ofString "/main.fun")).graph.importsOf p,
            ["base.fun", "left.fun", "right.fun"].idxOf q.baseName <
              ["base.fun", "left.fun", "right.fun"].idxOf p.baseName by decide +kernel)
  have hsilent : ((discover diamond (.ofString "/main.fun")).graph.order (.ofString "/main.fun")).toOption.map
      (fun order => (load (.ofString "/main.fun")
        ((discover diamond (.ofString "/main.fun")).inOrder order)).2) = some [] := by decide +kernel
  obtain ⟨order, ms, ds, horder, hload, -, hreports⟩ :=
    load_reports_iff_seesTwice diamond (.ofString "/main.fun") hread hacyclic
  obtain rfl : ds = [] := by simpa [horder, Except.toOption, hload] using hsilent
  obtain ⟨htwice, hreads⟩ := hreports (by simp [Confined])
  refine ⟨hread, hacyclic, order, ms, horder, hload, fun m hm hsees => ?_, hreads (by simp)⟩
  simpa using htwice.mpr ⟨m, hm, hsees⟩

end FunLang.Import
