import FunLang.Import.Loading
import FunLang.Proofs.Import.Discovery

set_option autoImplicit false

/-!
# Files are loaded after their imports

The files of a search come in an order in which each one stands behind its imports (`Arranged`). When
a file is loaded all the modules that it asks for are there, so that it makes no difference that others
are loaded later: each module is what loading makes of its file next to all modules (`load_eq`).
-/

namespace FunLang.Import

/-- Files with different paths, each behind all the files that it imports. -/
inductive Arranged : List SourceFile → Prop where
  | nil : Arranged []
  | concat {files : List SourceFile} {f : SourceFile} (h : Arranged files)
      (hnew : f.path ∉ files.map (·.path)) (himports : ∀ p ∈ f.imports, p ∈ files.map (·.path)) :
      Arranged (files ++ [f])

variable {files : List SourceFile} {f : SourceFile}

namespace Arranged

theorem nodup (h : Arranged files) : (files.map (·.path)).Nodup := by
  induction h with
  | nil => simp
  | concat _ hnew _ ih =>
      rw [List.map_append, List.map_singleton]
      exact List.nodup_append.mpr ⟨ih, by simp, fun p hp q hq heq =>
        hnew (List.mem_singleton.mp hq ▸ heq ▸ hp)⟩

theorem mem_of_imports (h : Arranged files) (hf : f ∈ files) {p : Path} (hp : p ∈ f.imports) :
    p ∈ files.map (·.path) := by
  induction h with
  | nil => simp at hf
  | concat _ _ himports ih =>
      rw [List.map_append]
      rcases List.mem_append.mp hf with hf | hf
      · exact List.mem_append_left _ (ih hf)
      · exact List.mem_append_left _ (himports p (List.mem_singleton.mp hf ▸ hp))

/-- What holds for a file if it holds for its imports holds for all files. -/
theorem induct (h : Arranged files) {P : SourceFile → Prop}
    (hstep : ∀ f ∈ files, (∀ f' ∈ files, f'.path ∈ f.imports → P f') → P f) : ∀ f ∈ files, P f := by
  induction h with
  | nil => simp
  | @concat files last h hnew himports ih =>
      -- the last file is imported by none of them
      have hbefore : ∀ f ∈ files, P f := by
        refine ih fun f hf hP => hstep f (List.mem_append_left _ hf) fun f' hf' hp => ?_
        rcases List.mem_append.mp hf' with hf' | hf'
        · exact hP f' hf' hp
        · exact absurd (List.mem_singleton.mp hf' ▸ h.mem_of_imports hf hp) hnew
      intro f hf
      rcases List.mem_append.mp hf with hf | hf
      · exact hbefore f hf
      · rw [List.mem_singleton.mp hf]
        refine hstep last (by simp) fun f' hf' hp => ?_
        rcases List.mem_append.mp hf' with hf' | hf'
        · exact hbefore f' hf'
        · exact absurd (List.mem_singleton.mp hf' ▸ himports _ hp) hnew

end Arranged

/-! ## The files of a search -/

variable {fs : FileSystem} {d : Discovery} {order : List Path}

theorem path_eq_of_find? {p : Path} (h : d.files.find? (·.path == p) = some f) : f.path = p := by
  simpa using List.find?_some h

theorem mem_inOrder_iff : f ∈ d.inOrder order ↔
    f.path ∈ order ∧ d.files.find? (·.path == f.path) = some f := by
  unfold Discovery.inOrder
  rw [List.mem_filterMap]
  constructor
  · rintro ⟨p, hp, hf⟩
    obtain rfl := path_eq_of_find? hf
    exact ⟨hp, hf⟩
  · rintro ⟨hp, hf⟩
    exact ⟨f.path, hp, hf⟩

/-- Each file that has been read has its place in the order. -/
theorem mem_paths_inOrder {p : Path} (hp : p ∈ order) (hread : d.contains p = true) :
    p ∈ (d.inOrder order).map (·.path) := by
  obtain ⟨f, hf⟩ := exists_find?_of_contains hread
  obtain rfl := path_eq_of_find? hf
  exact List.mem_map_of_mem (mem_inOrder_iff.mpr ⟨hp, hf⟩)

theorem Discovery.Reflects.arranged (hd : d.Reflects fs []) (h : d.graph.Ordered order) :
    Arranged (d.inOrder order) := by
  induction h with
  | nil => exact .nil
  | @concat ps p _ hnew himports ih =>
      have hconcat : d.inOrder (ps ++ [p]) = d.inOrder ps ++ d.inOrder [p] := List.filterMap_append
      rw [hconcat]
      cases hf : d.files.find? (·.path == p) with
      | none => simpa [Discovery.inOrder, hf] using ih
      | some f =>
          have hlast : d.inOrder [p] = [f] := by simp [Discovery.inOrder, hf]
          obtain rfl := path_eq_of_find? hf
          rw [hlast]
          refine .concat ih (fun hmem => ?_) fun q hq => ?_
          · obtain ⟨f', hf', hpath⟩ := List.mem_map.mp hmem
            exact hnew (hpath ▸ (mem_inOrder_iff.mp hf').1)
          · refine mem_paths_inOrder (himports q ?_) ?_
            · rwa [Graph.Imports, importsOf_graph_eq hf]
            · exact covers_nil_iff.mp (hd.imports f (List.mem_of_find?_eq_some hf) q hq)

/-! ## Modules -/

variable {entry : Path} {ms : List Module}

/-- Modules that are loaded later are not asked for. -/
theorem modulesAt_append {ps : List Path} (h : ∀ p ∈ ps, p ∈ ms.map (·.path)) (ms' : List Module) :
    modulesAt (ms ++ ms') ps = modulesAt ms ps := by
  refine List.filterMap_congr fun p hp => ?_
  obtain ⟨m, hm, hpath⟩ := List.mem_map.mp (h p hp)
  have hfound : (ms.find? (·.path == p)).isSome := List.find?_isSome.mpr ⟨m, hm, by simpa using hpath⟩
  rw [List.find?_append, Option.or_of_isSome hfound]

theorem mem_modulesAt_iff (hnodup : (ms.map (·.path)).Nodup) {ps : List Path} {m : Module} :
    m ∈ modulesAt ms ps ↔ m ∈ ms ∧ m.path ∈ ps := by
  unfold modulesAt
  rw [List.mem_filterMap]
  constructor
  · rintro ⟨p, hp, hm⟩
    have hpath : m.path = p := by simpa using List.find?_some hm
    exact ⟨List.mem_of_find?_eq_some hm, hpath ▸ hp⟩
  · rintro ⟨hm, hp⟩
    refine ⟨m.path, hp, ?_⟩
    obtain ⟨m', hm'⟩ := Option.isSome_iff_exists.mp
      (List.find?_isSome (p := fun m' : Module => m'.path == m.path).mpr ⟨m, hm, by simp⟩)
    have hpath : m'.path = m.path := by simpa using List.find?_some hm'
    rw [hm', List.inj_on_of_nodup_map hnodup (List.mem_of_find?_eq_some hm') hm hpath]

theorem loadFile_append (h : ∀ p ∈ f.imports, p ∈ ms.map (·.path)) (ms' : List Module) :
    loadFile entry (ms ++ ms') f = loadFile entry ms f := by
  unfold loadFile
  rw [modulesAt_append h]

theorem load_concat (entry : Path) (files : List SourceFile) (f : SourceFile) :
    load entry (files ++ [f]) =
      ((load entry files).1 ++ [(loadFile entry (load entry files).1 f).1],
        (load entry files).2 ++ (loadFile entry (load entry files).1 f).2) := by
  unfold load
  rw [List.foldl_append]
  rfl

theorem paths_load (entry : Path) (files : List SourceFile) :
    (load entry files).1.map (·.path) = files.map (·.path) := by
  induction files using List.reverseRecOn with
  | nil => rfl
  | append_singleton files f ih =>
      rw [load_concat, List.map_append, List.map_append, ih]
      rfl

/-- Each module and the messages about it are what its file gives next to all the modules. -/
theorem load_eq (entry : Path) (h : Arranged files) :
    (load entry files).1 = files.map (fun f => (loadFile entry (load entry files).1 f).1) ∧
      (load entry files).2 = files.flatMap fun f => (loadFile entry (load entry files).1 f).2 := by
  induction h with
  | nil => exact ⟨rfl, rfl⟩
  | @concat files last h hnew himports ih =>
      -- the last module is asked for by no file
      have hlast : ∀ f ∈ files ++ [last], loadFile entry (load entry (files ++ [last])).1 f =
          loadFile entry (load entry files).1 f := by
        intro f hf
        rw [load_concat]
        refine loadFile_append ?_ _
        rw [paths_load]
        intro p hp
        rcases List.mem_append.mp hf with hf | hf
        · exact h.mem_of_imports hf hp
        · exact himports p (List.mem_singleton.mp hf ▸ hp)
      rw [List.map_congr_left fun f hf => congrArg Prod.fst (hlast f hf),
        List.flatMap_congr fun f hf => congrArg Prod.snd (hlast f hf), load_concat, List.map_append,
        List.flatMap_append, ← ih.1, ← ih.2]
      simp

end FunLang.Import
