import FunLang.Proofs.Layout.Canonical
import FunLang.Proofs.Text.Quoted
import FunLang.Proofs.Token.Spans

set_option autoImplicit false

/-!
# The layout of imports

Paths of imports are laid out as quoted text, but strings are read as they stand: a backslash in a string is
a byte like any other. So what is read again of a path is its escaped form, which is the path itself only if
it is plain (`layout_imports`). All other paths grow each time that a program is laid out
(`layout_import_escaped`). Nothing of this depends on which characters are printable.
-/

namespace FunLang

open Lexer Grammar

/-! ## Paths -/

/-- A path that has been read is a part of a string. -/
theorem Grammar.AreImports.isStringPart {source : List UInt8} {ts : List Token} {is : List Import}
    (h : AreImports ts is) (hts : ∀ t ∈ ts, t ∈ tokenize source) :
    ∀ i ∈ is, ∀ b ∈ i.path, isStringPart b = true := by
  induction h with
  | nil => simp
  | cons h _ ih =>
      rw [List.forall_mem_append] at hts
      rw [List.forall_mem_cons]
      refine ⟨?_, ih hts.2⟩
      obtain ⟨-, hs, hpath, -⟩ := h
      obtain ⟨content, hliteral, hparts⟩ := exists_quoted_of_mem_tokenize (hts.1 _ (by simp)) hs
      obtain rfl : content = _ := by simpa [hliteral] using hpath
      exact hparts

namespace Layout

variable {shown : Char → Bool}

theorem isStringPart_of_mem_escaped {path : List UInt8} (hpath : ∀ b ∈ path, isStringPart b = true) :
    ∀ b ∈ Text.encode (Text.escaped shown path), isStringPart b = true := by
  intro b hb
  by_contra hpart
  -- the three bytes that end a string are characters of their own
  have hstop : b = 0x22 ∨ b = 0x0A ∨ b = 0 := by
    simpa [isStringPart, or_assoc, ← or_iff_not_imp_left] using hpart
  refine hpart (hpath b (Text.mem_of_mem_encode_escaped ?_ ?_ hb))
  · rcases hstop with rfl | rfl | rfl <;> decide
  · rcases hstop with rfl | rfl | rfl <;> decide

theorem encode_quoteBytes (shown : Char → Bool) (path : List UInt8) :
    Text.encode (Text.quoteBytes shown path) =
      0x22 :: (Text.encode (Text.escaped shown path) ++ [0x22]) := by
  rw [Text.quoteBytes_eq, Text.encode_append, Text.encode_append]
  rfl

/-- A quoted path is one token. -/
theorem opens_quoteBytes {path : List UInt8} (hpath : ∀ b ∈ path, isStringPart b = true) :
    Opens (Text.quoteBytes shown path) (IsToken .stringLit (Text.quoteBytes shown path)) :=
  spellsBefore_token (encode_quoteBytes shown path) rfl (by simp) fun rest _ =>
    ⟨_, lexeme_quoted (isStringPart_of_mem_escaped hpath) rest⟩

/-! ## Imports -/

theorem opens_importDecl {i : Import} (hi : ∀ b ∈ i.path, isStringPart b = true) :
    Opens (importDecl shown i) fun ts =>
      ∃ i', IsImport ts i' ∧ i'.path = Text.encode (Text.escaped shown i.path) := by
  have himport : Opens "import " (IsToken .kwImport "import") :=
    (spells_keyword (by decide)).framed "" " " rfl rfl
  have hsemicolon : Opens ";\n" (IsToken .semicolon ";") :=
    (spells_symbol (by decide)).framed "" "\n" rfl rfl
  refine ((himport.append_opens (opens_quoteBytes hi)).append_opens hsemicolon).mono ?_
  rintro _ ⟨_, _, rfl, ⟨_, _, rfl, ⟨k, rfl, hk, -⟩, s, rfl, hs, hliteral⟩, e, rfl, he, -⟩
  exact ⟨_, IsImport.mk hk hs (hliteral.trans (encode_quoteBytes shown i.path)) he, rfl⟩

theorem opens_imports {is : List Import} (his : ∀ i ∈ is, ∀ b ∈ i.path, isStringPart b = true) :
    Opens (String.join (is.map (importDecl shown))) fun ts => ∃ is', AreImports ts is' ∧
      is'.map Import.path = is.map fun i => Text.encode (Text.escaped shown i.path) := by
  induction is with
  | nil => exact (opens_gap rfl).mono fun ts hts => ⟨[], hts ▸ .nil, rfl⟩
  | cons i is ih =>
      rw [List.forall_mem_cons] at his
      rw [List.map_cons, String.join_cons]
      refine ((opens_importDecl his.1).append_opens (ih his.2)).mono ?_
      rintro _ ⟨ts, us, rfl, ⟨i', hi', hpath⟩, is', his', hpaths⟩
      exact ⟨i' :: is', .cons hi' his', by rw [List.map_cons, List.map_cons, hpath, hpaths]⟩

/-! ## Lines -/

theorem importDecl_eq_iff (i j : Import) :
    importDecl shown i = importDecl shown j ↔ Text.escaped shown i.path = Text.escaped shown j.path := by
  simp [importDecl, Text.quoteBytes_eq]

/-- Imports have the same lines if their paths are escaped in the same way. -/
theorem map_importDecl_eq_iff {is js : List Import} :
    is.map (importDecl shown) = js.map (importDecl shown) ↔
      (is.map Import.path).map (Text.escaped shown) = (js.map Import.path).map (Text.escaped shown) := by
  induction is generalizing js with
  | nil => cases js <;> simp
  | cons i is ih =>
      cases js with
      | nil => simp
      | cons j js => simp only [List.map_cons, List.cons.injEq, importDecl_eq_iff, ih]

/-! ## Programs -/

/-- Texts that are not empty are put together to one that is not empty. -/
theorem intercalate_ne_empty {s : String} (hs : s ≠ "") (l : List String) :
    "\n".intercalate (s :: l) ≠ "" := by
  cases l with
  | nil => rwa [String.intercalate_singleton]
  | cons t l =>
      rw [String.intercalate_cons_cons]
      intro h
      simp at h

/-- All sections after the first can be put together first. -/
theorem intercalate_sections (s : String) (l : List String) :
    "\n".intercalate ((s :: l).filter fun u => !u.isEmpty) =
      "\n".intercalate ([s, "\n".intercalate (l.filter fun u => !u.isEmpty)].filter
        fun u => !u.isEmpty) := by
  cases hl : l.filter fun u => !u.isEmpty with
  | nil => simp [List.filter_cons, hl]
  | cons t ts =>
      have ht : t ≠ "" := by
        have hmem : t ∈ l.filter fun u => !u.isEmpty := by simp [hl]
        simpa using (List.mem_filter.mp hmem).2
      have hrest := intercalate_ne_empty ht ts
      by_cases hs : s = ""
      · simp [hl, hs, hrest]
      · simp [hl, hs, hrest, String.intercalate_cons_cons]

theorem programWith_eq_sections (shown : Char → Bool) (p : Program) :
    programWith shown p = "\n".intercalate ([String.join (p.imports.map (importDecl shown)),
      program { p with imports := [] }].filter fun u => !u.isEmpty) := by
  have hrest : program { p with imports := [] } = "\n".intercalate
      ([String.join (p.data.map dataDecl), if p.body.isMissing then "" else body p.body].filter
        fun u => !u.isEmpty) := rfl
  rw [hrest, ← intercalate_sections]
  rfl

section Again

open FunLang.Parser

variable {Γ : CtorTable} {p : Program}

theorem spells_programWith (shown : Char → Bool)
    (hp : Program.IsWellFormedIn Γ { p with imports := [] })
    (his : ∀ i ∈ p.imports, ∀ b ∈ i.path, isStringPart b = true) :
    Spells (programWith shown p) fun ts => ∃ us vs ws is Δ ds e, ts = us ++ (vs ++ ws) ∧
      AreImports us is ∧ AreData Γ vs ds Δ ∧ IsBody Δ true ws e ∧
      is.map Import.path = p.imports.map (fun i => Text.encode (Text.escaped shown i.path)) ∧
      Program.unplaced ⟨[], ds, e⟩ = Program.unplaced { p with imports := [] } := by
  rw [programWith_eq_sections]
  refine spells_sections (opens_imports his) ?_
  rintro us ⟨is, hus, hpaths⟩
  refine (spells_program hp).mono ?_
  rintro _ ⟨vs, ws, Δ, ds, e, rfl, hvs, hws, hunplaced⟩
  exact ⟨us, vs, ws, is, Δ, ds, e, rfl, hus, hvs, hws, hpaths, hunplaced⟩

/-- Reading the text of a program: the paths of its imports come back escaped, and the rest as it was. -/
theorem parseProgram_programWith (shown : Char → Bool)
    (hp : Program.IsWellFormedIn Γ { p with imports := [] })
    (his : ∀ i ∈ p.imports, ∀ b ∈ i.path, isStringPart b = true) :
    let q := parseProgram (Text.encode (programWith shown p)) Γ
    q.2.diags = [] ∧
      Program.unplaced { q.1 with imports := [] } = Program.unplaced { p with imports := [] } ∧
      q.1.imports.map Import.path = p.imports.map fun i => Text.encode (Text.escaped shown i.path) := by
  obtain ⟨_, z, htokens, ⟨us, vs, ws, is, Δ, ds, e, rfl, hus, hvs, hws, hpaths, hunplaced⟩, hz⟩ :=
    (spells_programWith shown hp his).tokenize_eq
  have hprogram : IsProgram Γ true (tokenize (Text.encode (programWith shown p))) ⟨is, ds, e⟩ := by
    rw [htokens, List.append_assoc, List.append_assoc]
    exact IsProgram.mk hus hvs hws hz
  obtain ⟨hdiags, heq⟩ := parseProgram_eq_of_isProgram hprogram
  dsimp only
  rw [heq]
  exact ⟨hdiags, hunplaced, hpaths⟩

/-- What is read without an error can be laid out and read again. -/
theorem parseProgram_again {source : List UInt8}
    (h : Diagnostic.hasErrors (parseProgram source Γ).2.diags = false) :
    Program.IsWellFormedIn Γ { (parseProgram source Γ).1 with imports := [] } ∧
      ∀ i ∈ (parseProgram source Γ).1.imports, ∀ b ∈ i.path, isStringPart b = true := by
  have hprogram := isProgram_parseProgram true (hasErrors_parseProgram_iff.mp h)
  generalize htokens : tokenize source = ts at hprogram
  generalize (parseProgram source Γ).1 = p at hprogram
  have hproper : ∀ t ∈ ts, t.IsProper := fun t ht => isProper_of_mem_tokenize (htokens ▸ ht)
  cases hprogram with
  | @mk _ us vs ws z _ _ _ hus hvs hws hz =>
      have hrest : IsProgram Γ true ([] ++ (vs ++ (ws ++ [z]))) ⟨[], _, _⟩ := .mk .nil hvs hws hz
      refine ⟨hrest.isWellFormedIn (fun t ht => hproper t (List.mem_append_right us ht)) rfl, ?_⟩
      have hmem : ∀ t ∈ us, t ∈ tokenize source := by
        rw [htokens]
        exact fun t => List.mem_append_left _
      exact hus.isStringPart hmem

end Again

open FunLang.Parser in
/-- **Plain paths are kept by layout, and no others.** This holds whichever characters are printable; for
`program` they are those of `Text.isPrintable`. If a source text is read without an error as a program, its
text is read again without a message. The data declarations and the body are the same then up to places,
but the paths of the imports are the bytes of the escaped ones. These are the same paths exactly if all of
them are plain, that is, the bytes of printable characters other than quotes and backslashes, and only then
laying out the program once more gives the same lines. -/
theorem layout_imports (shown : Char → Bool) (Γ : CtorTable) (source : List UInt8)
    (h : Diagnostic.hasErrors (parseProgram source Γ).2.diags = false) :
    let p := (parseProgram source Γ).1
    let q := parseProgram (Text.encode (programWith shown p)) Γ
    q.2.diags = [] ∧
      Program.unplaced { q.1 with imports := [] } = Program.unplaced { p with imports := [] } ∧
      q.1.imports.map Import.path = p.imports.map (fun i => Text.encode (Text.escaped shown i.path)) ∧
      (q.1.imports.map Import.path = p.imports.map Import.path ↔
        ∀ i ∈ p.imports, Text.IsPlain shown i.path) ∧
      (q.1.imports.map (importDecl shown) = p.imports.map (importDecl shown) ↔
        ∀ i ∈ p.imports, Text.IsPlain shown i.path) := by
  intro p
  have hp : Program.IsWellFormedIn Γ { p with imports := [] } := (parseProgram_again h).1
  have his : ∀ i ∈ p.imports, ∀ b ∈ i.path, isStringPart b = true := (parseProgram_again h).2
  -- from here on it does not matter where the program comes from
  clear_value p
  obtain ⟨hdiags, hunplaced, hpaths⟩ := parseProgram_programWith shown hp his
  refine ⟨hdiags, hunplaced, hpaths, ?_, ?_⟩
  · rw [hpaths, List.map_inj_left]
    exact forall₂_congr fun i _ => Text.encode_escaped_eq_iff i.path
  · rw [map_importDecl_eq_iff, hpaths, List.map_map, List.map_map, List.map_inj_left]
    exact forall₂_congr fun i _ => Text.escaped_encode_escaped_iff i.path

open FunLang.Parser in
/-- Paths with a blank and with characters beyond ASCII are plain. One with a tab is not, and neither is one
with a byte that belongs to no character. -/
theorem layout_imports_tab :
    let source := Text.encode "import \"a b/π.fun\"; import \"c\td\"; import \"caf" ++ [0xE9] ++
      Text.encode "\"; data T = A; A // end"
    Diagnostic.hasErrors (parseProgram source []).2.diags = false ∧
      (parseProgram (Text.encode (program (parseProgram source []).1)) []).1.imports.map Import.path =
        [Text.encode "a b/π.fun", Text.encode "c\\td", Text.encode "caf\\xe9"] := by
  intro source
  have haccepted : Diagnostic.hasErrors (parseProgram source []).2.diags = false := by decide +kernel
  have hescaped : (parseProgram source []).1.imports.map
      (fun i => Text.encode (Text.escaped Text.isPrintable i.path)) =
        [Text.encode "a b/π.fun", Text.encode "c\\td", Text.encode "caf\\xe9"] := by decide +kernel
  have hpaths := (layout_imports Text.isPrintable [] source haccepted).2.2.1
  rw [program]
  exact ⟨haccepted, hpaths.trans hescaped⟩

open FunLang.Parser in
/-- A backslash is doubled each time. -/
theorem layout_import_escaped :
    let source := Text.encode "import \"a\\b\"; 1"
    let p := (parseProgram source []).1
    let q := (parseProgram (Text.encode (program p)) []).1
    let line := importDecl Text.isPrintable
    Diagnostic.hasErrors (parseProgram source []).2.diags = false ∧
      p.imports.map Import.path = [Text.encode "a\\b"] ∧
      q.imports.map Import.path = [Text.encode "a\\\\b"] ∧
      p.imports.map line = ["import \"a\\\\b\";\n"] ∧
      q.imports.map line = ["import \"a\\\\\\\\b\";\n"] := by
  decide +kernel

end Layout

end FunLang
