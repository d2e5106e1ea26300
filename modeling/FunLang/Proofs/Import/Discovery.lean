import FunLang.Proofs.Import.Order
import Mathlib.Data.List.TakeWhile

set_option autoImplicit false

/-!
# Everything that is imported is read

A search that meets no unreadable file reads a file and all the files that it imports, directly or through
others (`contains_of_reaches`), and holds the text of each one. Its rounds are enough: each one reads a
file that has not been read before, and there are no more of them than files.
-/

namespace FunLang.Import

variable {fs : FileSystem} {d : Discovery} {queue : List Path}

namespace Discovery

theorem contains_iff {p : Path} : d.contains p = true ↔ p ∈ d.files.map (·.path) := by
  simp [contains]

/-- The search with one more file. -/
def add (d : Discovery) (f : SourceFile) (ds : List Diagnostic) : Discovery :=
  { d with files := d.files ++ [f], diags := d.diags ++ ds }

theorem contains_add_iff {f : SourceFile} {ds : List Diagnostic} {p : Path} :
    (d.add f ds).contains p = true ↔ d.contains p = true ∨ p = f.path := by
  simp [contains_iff, add]

/-- A file has been read or waits in the queue. -/
def Covers (d : Discovery) (queue : List Path) (p : Path) : Prop := d.contains p = true ∨ p ∈ queue

theorem covers_nil_iff {p : Path} : d.Covers [] p ↔ d.contains p = true := by
  simp [Covers]

/-- What stands in the queue before the next file has been read. -/
theorem Covers.dropWhile {p : Path} (h : d.Covers queue p) :
    d.Covers (queue.dropWhile d.contains) p := by
  rcases h with h | h
  · exact Or.inl h
  · rw [← List.takeWhile_append_dropWhile (p := d.contains) (l := queue)] at h
    rcases List.mem_append.mp h with h | h
    · exact Or.inl (List.mem_takeWhile_imp h)
    · exact Or.inr h

/-- The next file is read, and its imports go to the end of the queue. -/
theorem Covers.add {f : SourceFile} {ds : List Diagnostic} {p : Path}
    (h : d.Covers (f.path :: queue) p) : (d.add f ds).Covers (queue ++ f.imports) p := by
  rw [Covers, contains_add_iff]
  rcases h with h | h
  · exact Or.inl (Or.inl h)
  · rcases List.mem_cons.mp h with h | h
    · exact Or.inl (Or.inr h)
    · exact Or.inr (List.mem_append_left _ h)

/-- What has been read so far: each file once and as it stands in the file system, while its imports have
been read or wait in the queue. -/
structure Reflects (fs : FileSystem) (queue : List Path) (d : Discovery) : Prop where
  nodup : (d.files.map (·.path)).Nodup
  source : ∀ f ∈ d.files, fs.read f.path = .ok f.source
  imports : ∀ f ∈ d.files, ∀ p ∈ f.imports, d.Covers queue p

end Discovery

theorem Discovery.reflects_empty (fs : FileSystem) (queue : List Path) :
    Discovery.empty.Reflects fs queue :=
  ⟨.nil, nofun, nofun⟩

theorem Discovery.Reflects.dropWhile (h : d.Reflects fs queue) :
    d.Reflects fs (queue.dropWhile d.contains) :=
  ⟨h.nodup, h.source, fun f hf p hp => (h.imports f hf p hp).dropWhile⟩

/-- The next file of the queue has not been read. -/
theorem Discovery.contains_of_dropWhile {p : Path} {rest : List Path}
    (h : queue.dropWhile d.contains = p :: rest) : d.contains p = false := by
  have hhead := List.head_dropWhile_not (l := queue) d.contains (by simp [h])
  simpa [h] using hhead

theorem mem_keys_of_read {p : Path} {source : List UInt8} (h : fs.read p = .ok source) :
    p ∈ fs.files.map Prod.fst := by
  unfold FileSystem.read FileSystem.node? at h
  cases hl : fs.files.lookup p with
  | some bytes =>
      obtain ⟨l₁, l₂, hfiles, -⟩ := List.lookup_eq_some_iff.mp hl
      simp [hfiles]
  | none =>
      rw [hl] at h
      by_cases hdir : fs.isDirectory p = true <;> simp [hdir] at h

theorem Discovery.Reflects.length_le (h : d.Reflects fs queue) : d.files.length ≤ fs.files.length := by
  have hsub : d.files.map (·.path) ⊆ fs.files.map Prod.fst := by
    intro p hp
    obtain ⟨f, hf, rfl⟩ := List.mem_map.mp hp
    exact mem_keys_of_read (h.source f hf)
  simpa using (h.nodup.subperm hsub).length_le

/-- Reading one more file. -/
theorem Discovery.Reflects.add {f : SourceFile} {ds : List Diagnostic}
    (h : d.Reflects fs (f.path :: queue)) (hnew : d.contains f.path = false)
    (hf : fs.read f.path = .ok f.source) : (d.add f ds).Reflects fs (queue ++ f.imports) := by
  have hnew : f.path ∉ d.files.map (·.path) := by
    rw [← Discovery.contains_iff, hnew]
    simp
  have hmem : ∀ f' ∈ (d.add f ds).files, f' ∈ d.files ∨ f' = f := fun f' hf' =>
    (List.mem_append.mp hf').imp_right List.mem_singleton.mp
  refine ⟨?_, fun f' hf' => ?_, fun f' hf' p hp => ?_⟩
  · have hpaths : (d.add f ds).files.map (·.path) = d.files.map (·.path) ++ [f.path] := by
      simp [Discovery.add]
    rw [hpaths]
    exact List.nodup_append.mpr ⟨h.nodup, by simp, fun p hp q hq heq =>
      hnew (List.mem_singleton.mp hq ▸ heq ▸ hp)⟩
  · rcases hmem f' hf' with hf' | rfl
    · exact h.source f' hf'
    · exact hf
  · rcases hmem f' hf' with hf' | rfl
    · exact (h.imports f' hf' p hp).add
    · exact Or.inr (List.mem_append_right _ hp)

/-- A search that ends well leaves nothing in its queue. -/
theorem discoverFrom_spec (rounds : Nat) : ∀ (queue : List Path) (d : Discovery), d.Reflects fs queue →
    fs.files.length + 1 ≤ rounds + d.files.length →
      (discoverFrom fs rounds queue d).unreadable = none →
        (discoverFrom fs rounds queue d).Reflects fs [] ∧
          ∀ p, d.Covers queue p → (discoverFrom fs rounds queue d).contains p = true := by
  induction rounds with
  | zero =>
      intro queue d hd hrounds
      have hlength := hd.length_le
      omega
  | succ rounds ih =>
      intro queue d hd hrounds hread
      -- what has been read already is passed over in the queue
      have hskip := hd.dropWhile
      have hcovers : ∀ p, d.Covers queue p → d.Covers (queue.dropWhile d.contains) p := fun _ =>
        Discovery.Covers.dropWhile
      rw [discoverFrom] at hread ⊢
      cases hdrop : queue.dropWhile d.contains with
      | nil =>
          rw [hdrop] at hskip hcovers
          exact ⟨hskip, fun p hp => Discovery.covers_nil_iff.mp (hcovers p hp)⟩
      | cons p rest =>
          have hnew := Discovery.contains_of_dropWhile hdrop
          rw [hdrop] at hskip hcovers
          simp only [hdrop] at hread ⊢
          cases hsource : fs.read p with
          | error e => simp [hsource] at hread
          | ok source =>
              simp only [hsource] at hread ⊢
              have hadd : (d.add (header fs p source).1 (header fs p source).2).Reflects fs
                  (rest ++ (header fs p source).1.imports) := hskip.add hnew hsource
              obtain ⟨hreflects, hall⟩ := ih _ _ hadd (by simp [Discovery.add]; omega) hread
              exact ⟨hreflects, fun q hq => hall q (hcovers q hq).add⟩

/-- A search that ends well has read the file it began with, and with a file those that it imports. -/
theorem discover_spec {entry : Path} (h : (discover fs entry).unreadable = none) :
    (discover fs entry).Reflects fs [] ∧ (discover fs entry).contains entry = true := by
  obtain ⟨hreflects, hall⟩ := discoverFrom_spec (fs.files.length + 1) [entry] .empty
    (Discovery.reflects_empty fs [entry]) (by simp) h
  exact ⟨hreflects, hall entry (Or.inr (by simp))⟩

/-! ## The graph of a search -/

theorem importsOf_graph_eq {p : Path} {f : SourceFile}
    (h : d.files.find? (·.path == p) = some f) : d.graph.importsOf p = f.imports := by
  unfold Discovery.graph Graph.importsOf
  generalize d.files = files at h ⊢
  induction files with
  | nil => simp at h
  | cons f' fs ih =>
      by_cases hp : f'.path = p
      · simp only [List.find?_cons, hp, beq_self_eq_true, Option.some.injEq] at h
        simp [← h, ← hp]
      · have hp' : ¬ p = f'.path := fun heq => hp heq.symm
        simp only [List.find?_cons, beq_eq_false_iff_ne.mpr hp] at h
        simpa [List.lookup_cons, beq_eq_false_iff_ne.mpr hp'] using ih h

theorem exists_find?_of_contains {p : Path} (h : d.contains p = true) :
    ∃ f, d.files.find? (·.path == p) = some f := by
  obtain ⟨f, hf, hp⟩ := List.mem_map.mp (Discovery.contains_iff.mp h)
  exact Option.isSome_iff_exists.mp (List.find?_isSome.mpr ⟨f, hf, by simpa using hp⟩)

/-- All that is imported by a file that has been read has been read. -/
theorem contains_of_reaches (hd : d.Reflects fs []) {p q : Path} (hp : d.contains p = true)
    (hpq : Relation.ReflTransGen d.graph.Imports p q) : d.contains q = true := by
  induction hpq with
  | refl => exact hp
  | tail _ himports ih =>
      obtain ⟨f, hf⟩ := exists_find?_of_contains ih
      rw [Graph.Imports, importsOf_graph_eq hf] at himports
      exact Discovery.covers_nil_iff.mp (hd.imports f (List.mem_of_find?_eq_some hf) _ himports)

end FunLang.Import
