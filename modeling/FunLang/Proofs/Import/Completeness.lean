import FunLang.Proofs.Import.Discovery

set_option autoImplicit false

/-!
# What a search finds

A search works through its queue from the front, without any bound on its rounds (`Searches`). It comes
to an end in every file system, whether imports lead in circles or not: each path is either passed over,
which makes the queue shorter, or read, which can happen only once for each file. `discover` is this
search (`exists_searches_discover`).

If nothing is wrong with the files then those that have been read are the ones to which imports lead
from the first one, each of them with the paths that its imports name, in their order
(`discover_complete`).
-/

namespace FunLang

/-- An import at the start of a file leads to another path, as seen from the directory of the file. -/
def FileSystem.Imports (fs : FileSystem) (p q : Path) : Prop :=
  ∃ source, fs.read p = .ok source ∧
    ∃ i ∈ (Parser.parseImports source).1, p.parent.resolve i.path = q

namespace Import

variable {fs : FileSystem} {queue reads : List Path} {d d' : Discovery}

/-- A search with a queue of paths, from what has been read so far to its end. It reads the files
`reads`, in this order; the last of them may be one that cannot be read. -/
inductive Searches (fs : FileSystem) : List Path → Discovery → List Path → Discovery → Prop where
  | done (d : Discovery) : Searches fs [] d [] d
  | again {p : Path} {queue reads : List Path} {d d' : Discovery} (hp : d.contains p = true)
      (h : Searches fs queue d reads d') : Searches fs (p :: queue) d reads d'
  | fail {p : Path} (queue : List Path) {d : Discovery} {e : FileError} (hp : d.contains p = false)
      (hread : fs.read p = .error e) :
      Searches fs (p :: queue) d [p] { d with unreadable := some (p, e) }
  | read {p : Path} {queue reads : List Path} {d d' : Discovery} {source : List UInt8}
      (hp : d.contains p = false) (hread : fs.read p = .ok source)
      (h : Searches fs (queue ++ (header fs p source).1.imports)
        (d.add (header fs p source).1 (header fs p source).2) reads d') :
      Searches fs (p :: queue) d (p :: reads) d'

/-! ## A search comes to its end -/

/-- What stands in the queue before the next file is passed over. -/
theorem Searches.of_dropWhile (h : Searches fs (queue.dropWhile d.contains) d reads d') :
    Searches fs queue d reads d' := by
  induction queue with
  | nil => exact h
  | cons p queue ih =>
      by_cases hp : d.contains p = true
      · rw [List.dropWhile_cons_of_pos hp] at h
        exact .again hp (ih h)
      · rwa [List.dropWhile_cons_of_neg hp] at h

theorem exists_searches_discoverFrom (rounds : Nat) : ∀ (queue : List Path) (d : Discovery),
    d.Reflects fs queue → fs.files.length + 1 ≤ rounds + d.files.length →
      ∃ reads, Searches fs queue d reads (discoverFrom fs rounds queue d) := by
  -- every round reads a file that is new, so the rounds cannot run out before the files do
  induction rounds with
  | zero =>
      intro queue d hd hrounds
      have hlength := hd.length_le
      omega
  | succ rounds ih =>
      intro queue d hd hrounds
      have hskip := hd.dropWhile
      suffices ∃ reads, Searches fs (queue.dropWhile d.contains) d reads
          (discoverFrom fs (rounds + 1) queue d) by
        obtain ⟨reads, h⟩ := this
        exact ⟨reads, h.of_dropWhile⟩
      rw [discoverFrom]
      cases hdrop : queue.dropWhile d.contains with
      | nil => exact ⟨[], .done d⟩
      | cons p rest =>
          have hnew := Discovery.contains_of_dropWhile hdrop
          rw [hdrop] at hskip
          cases hsource : fs.read p with
          | error e =>
              simp only [hsource]
              exact ⟨[p], .fail rest hnew hsource⟩
          | ok source =>
              simp only [hsource]
              have hadd : (d.add (header fs p source).1 (header fs p source).2).Reflects fs
                  (rest ++ (header fs p source).1.imports) := hskip.add hnew hsource
              obtain ⟨reads, h⟩ := ih _ _ hadd (by simp [Discovery.add]; omega)
              exact ⟨p :: reads, .read hnew hsource h⟩

/-- The search from a file comes to its end, and `discover` finds what it finds. -/
theorem exists_searches_discover (fs : FileSystem) (entry : Path) :
    ∃ reads, Searches fs [entry] .empty reads (discover fs entry) :=
  exists_searches_discoverFrom _ _ _ (Discovery.reflects_empty fs [entry]) (by simp [Discovery.empty])

/-! ## What is read -/

/-- No file is read twice, and none that has been read before. -/
theorem Searches.nodup (h : Searches fs queue d reads d') :
    reads.Nodup ∧ ∀ p ∈ reads, d.contains p = false := by
  induction h with
  | done d => exact ⟨.nil, nofun⟩
  | again _ _ ih => exact ih
  | fail queue hp _ => exact ⟨List.nodup_singleton _, fun q hq => List.mem_singleton.mp hq ▸ hp⟩
  | @read p queue reads d d' source hp _ _ ih =>
      have hlater : ∀ q ∈ reads, d.contains q = false ∧ q ≠ p := by
        intro q hq
        have hadd := ih.2 q hq
        rw [Bool.eq_false_iff, ne_eq, Discovery.contains_add_iff, not_or] at hadd
        exact ⟨by simpa using hadd.1, hadd.2⟩
      refine ⟨List.nodup_cons.mpr ⟨fun hmem => (hlater p hmem).2 rfl, ih.1⟩, fun q hq => ?_⟩
      rcases List.mem_cons.mp hq with rfl | hq
      · exact hp
      · exact (hlater q hq).1

/-- Without an unreadable file there is an entry for each file that is read, in the same order. -/
theorem Searches.paths_eq (h : Searches fs queue d reads d') (hread : d'.unreadable = none) :
    d'.files.map (·.path) = d.files.map (·.path) ++ reads := by
  induction h with
  | done d => simp
  | again _ _ ih => exact ih hread
  | fail _ _ _ => cases hread
  | @read p queue reads d d' source _ _ _ ih =>
      calc d'.files.map (·.path)
          = (d.add (header fs p source).1 (header fs p source).2).files.map (·.path) ++ reads := ih hread
        _ = (d.files.map (·.path) ++ [p]) ++ reads := by
          rw [Discovery.add, List.map_append]
          rfl
        _ = d.files.map (·.path) ++ p :: reads := by simp

/-- A property that goes over from a file to its imports holds for all files that are read if it holds
for those in the queue. -/
theorem Searches.forall_reads {P : Path → Prop}
    (himports : ∀ p source, P p → fs.read p = .ok source → ∀ q ∈ (header fs p source).1.imports, P q)
    (h : Searches fs queue d reads d') (hqueue : ∀ p ∈ queue, P p) : ∀ p ∈ reads, P p := by
  induction h with
  | done d => nofun
  | again _ _ ih => exact ih fun q hq => hqueue q (List.mem_cons_of_mem _ hq)
  | fail queue _ _ => exact fun q hq => List.mem_singleton.mp hq ▸ hqueue _ List.mem_cons_self
  | @read p queue reads d d' source _ hread _ ih =>
      have hp : P p := hqueue p List.mem_cons_self
      intro q hq
      rcases List.mem_cons.mp hq with rfl | hq
      · exact hp
      · apply ih _ q hq
        intro r hr
        rcases List.mem_append.mp hr with hr | hr
        · exact hqueue r (List.mem_cons_of_mem _ hr)
        · exact himports p source hp hread r hr

/-! ## What is found at the start of a file -/

/-- The entry for a file is made from its text, and the messages about its imports are among those of
the search. -/
structure Discovery.Records (fs : FileSystem) (d : Discovery) (f : SourceFile) : Prop where
  source : fs.read f.path = .ok f.source
  header : (header fs f.path f.source).1 = f
  diags : ∀ m ∈ (Import.header fs f.path f.source).2, m ∈ d.diags

theorem Searches.records (h : Searches fs queue d reads d') (hd : ∀ f ∈ d.files, d.Records fs f) :
    ∀ f ∈ d'.files, d'.Records fs f := by
  induction h with
  | done d => exact hd
  | again _ _ ih => exact ih hd
  | fail _ _ _ => exact fun f hf => ⟨(hd f hf).source, (hd f hf).header, (hd f hf).diags⟩
  | read _ hread _ ih =>
      refine ih fun f hf => ?_
      rcases List.mem_append.mp hf with hf | hf
      · exact ⟨(hd f hf).source, (hd f hf).header, fun m hm => List.mem_append_left _ ((hd f hf).diags m hm)⟩
      · rw [List.mem_singleton.mp hf]
        exact ⟨hread, rfl, fun m hm => List.mem_append_right _ hm⟩

/-- An import leads to the path that it names, or else there is an error. -/
theorem target_cases (fs : FileSystem) (file : Path) (i : Import) :
    target fs file i = .ok (file.parent.resolve i.path) ∨
      ∃ m, target fs file i = .error m ∧ m.severity = .error := by
  unfold target
  dsimp only
  split_ifs
  · exact Or.inr ⟨_, rfl, rfl⟩
  · exact Or.inr ⟨_, rfl, rfl⟩
  · exact Or.inl rfl

theorem targets_cons (fs : FileSystem) (file : Path) (i : Import) (is : List Import) :
    targets fs file (i :: is) =
      match target fs file i with
      | .ok p => (p :: (targets fs file is).1, (targets fs file is).2)
      | .error m => ((targets fs file is).1, m :: (targets fs file is).2) := by
  rfl

/-- The imports of a file are paths that its text names. -/
theorem exists_of_mem_targets {file q : Path} {is : List Import} (h : q ∈ (targets fs file is).1) :
    ∃ i ∈ is, file.parent.resolve i.path = q := by
  induction is with
  | nil => cases h
  | cons i is ih =>
      have hlater : q ∈ (targets fs file is).1 → ∃ i' ∈ i :: is, file.parent.resolve i'.path = q := by
        intro hq
        obtain ⟨i', hi', heq⟩ := ih hq
        exact ⟨i', List.mem_cons_of_mem _ hi', heq⟩
      rw [targets_cons] at h
      rcases target_cases fs file i with htarget | ⟨m, htarget, -⟩
      · simp only [htarget, List.mem_cons] at h
        rcases h with rfl | h
        · exact ⟨i, List.mem_cons_self, rfl⟩
        · exact hlater h
      · simp only [htarget] at h
        exact hlater h

/-- Without an error no import is left out. -/
theorem targets_eq_map {file : Path} {is : List Import}
    (h : ∀ m ∈ (targets fs file is).2, m.severity ≠ .error) :
    (targets fs file is).1 = is.map fun i => file.parent.resolve i.path := by
  induction is with
  | nil => rfl
  | cons i is ih =>
      rw [targets_cons] at h ⊢
      rcases target_cases fs file i with htarget | ⟨m, htarget, herror⟩
      · simp only [htarget] at h ⊢
        rw [ih h, List.map_cons]
      · simp only [htarget] at h
        exact absurd herror (h m List.mem_cons_self)

theorem Discovery.Records.imports_eq {f : SourceFile} (hf : d.Records fs f)
    (herrors : Diagnostic.hasErrors d.diags = false) :
    f.imports = (Parser.parseImports f.source).1.map fun i => f.path.parent.resolve i.path := by
  have hsilent : ∀ m ∈ (targets fs f.path (Parser.parseImports f.source).1).2, m.severity ≠ .error := by
    intro m hm
    have hmem : m ∈ d.diags := hf.diags m (List.mem_append_right _ hm)
    simpa using List.any_eq_false.mp herrors m hmem
  calc f.imports = (targets fs f.path (Parser.parseImports f.source).1).1 := by
        conv_lhs => rw [← hf.header]
        rfl
    _ = _ := targets_eq_map hsilent

/-! ## The result -/

/-- The search from a file stops and reads nothing twice. If no file is unreadable and there is no
error, it has an entry for each file to which imports lead from the first one, and for no other file.
An entry holds the text of its file and the paths of all its imports, in the order of the text. -/
theorem discover_complete (fs : FileSystem) (entry : Path) :
    ∃ reads, Searches fs [entry] .empty reads (discover fs entry) ∧ reads.Nodup ∧
      ((discover fs entry).unreadable = none → Diagnostic.hasErrors (discover fs entry).diags = false →
        (discover fs entry).files.map (·.path) = reads ∧
        (∀ p, p ∈ reads ↔ Relation.ReflTransGen fs.Imports entry p) ∧
        ∀ f ∈ (discover fs entry).files, fs.read f.path = .ok f.source ∧
          f.imports = (Parser.parseImports f.source).1.map fun i => f.path.parent.resolve i.path) := by
  obtain ⟨reads, h⟩ := exists_searches_discover fs entry
  refine ⟨reads, h, h.nodup.1, fun hread herrors => ?_⟩
  have hpaths : (discover fs entry).files.map (·.path) = reads := h.paths_eq hread
  have hrecords := h.records (d := .empty) nofun
  obtain ⟨hreflects, hentry⟩ := discover_spec hread
  refine ⟨hpaths, fun p => ⟨?_, fun hreach => ?_⟩, fun f hf => ?_⟩
  · -- imports lead to everything in the queue, and so to everything that is read
    refine h.forall_reads (fun q source hq hsource r hr => ?_) (fun q hq => ?_) p
    · obtain ⟨i, hi, heq⟩ := exists_of_mem_targets hr
      exact hq.tail ⟨source, hsource, i, hi, heq⟩
    · rw [List.mem_singleton.mp hq]
  · -- what has been read is closed under imports
    rw [← hpaths, ← Discovery.contains_iff]
    induction hreach with
    | refl => exact hentry
    | tail _ himports ih =>
        obtain ⟨source, hsource, i, hi, rfl⟩ := himports
        obtain ⟨f, hf, rfl⟩ := List.mem_map.mp (Discovery.contains_iff.mp ih)
        have hf' := hrecords f hf
        obtain rfl : f.source = source := Except.ok.inj (hf'.source.symm.trans hsource)
        have hmem : f.path.parent.resolve i.path ∈ f.imports := by
          rw [hf'.imports_eq herrors]
          exact List.mem_map_of_mem hi
        exact Discovery.covers_nil_iff.mp (hreflects.imports f hf _ hmem)
  · exact ⟨(hrecords f hf).source, (hrecords f hf).imports_eq herrors⟩

/-- Three files: one imports the others, one of them twice, and each of these imports the first one. -/
def ring : FileSystem where
  workDir := ⟨true, []⟩
  files := [
    (.ofString "/main.fun", Text.encode "import \"a/x.fun\"; import \"y.fun\"; import \"a/../y.fun\"; 1"),
    (.ofString "/a/x.fun", Text.encode "import \"../main.fun\";"),
    (.ofString "/y.fun", Text.encode "import \"./main.fun\";"),
    (.ofString "/z.fun", Text.encode "import \"main.fun\";")]
  directories := []

/-- What a search has found, without the texts. -/
def Discovery.summary (d : Discovery) : Option (Path × FileError) × List Diagnostic × Graph :=
  (d.unreadable, d.diags, d.graph)

theorem Discovery.of_summary_eq {g : Graph} (h : d.summary = (none, [], g)) :
    d.unreadable = none ∧ Diagnostic.hasErrors d.diags = false ∧ d.files.map (·.path) = g.map Prod.fst := by
  simp only [Discovery.summary, Discovery.graph, Prod.mk.injEq] at h
  obtain ⟨hread, hdiags, rfl⟩ := h
  exact ⟨hread, by simp [hdiags, Diagnostic.hasErrors], by simp⟩

theorem discover_complete_ring :
    (discover ring (.ofString "/main.fun")).unreadable = none ∧
    Diagnostic.hasErrors (discover ring (.ofString "/main.fun")).diags = false ∧
    ∀ p, Relation.ReflTransGen ring.Imports (Path.ofString "/main.fun") p ↔
      p ∈ [.ofString "/main.fun", .ofString "/a/x.fun", .ofString "/y.fun"] := by
  have hsummary : (discover ring (.ofString "/main.fun")).summary = (none, [],
      [(.ofString "/main.fun", [.ofString "/a/x.fun", .ofString "/y.fun", .ofString "/y.fun"]),
        (.ofString "/a/x.fun", [.ofString "/main.fun"]), (.ofString "/y.fun", [.ofString "/main.fun"])]) := by
    decide +kernel
  obtain ⟨hread, herrors, hpaths⟩ := Discovery.of_summary_eq hsummary
  obtain ⟨reads, -, -, hfound⟩ := discover_complete ring (.ofString "/main.fun")
  obtain ⟨hreads, hreach, -⟩ := hfound hread herrors
  refine ⟨hread, herrors, fun p => ?_⟩
  rw [← hreach, ← hreads, hpaths]
  rfl

end Import

end FunLang
