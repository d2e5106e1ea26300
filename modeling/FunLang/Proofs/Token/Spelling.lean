import FunLang.Proofs.Text.Ascii
import FunLang.Proofs.Token.Sequence

set_option autoImplicit false

/-!
# Texts and the tokens they spell

`Spells s P` says that the text `s` is cut into tokens with the property `P`, provided that behind
it the input ends or goes on with a byte that no token can take in: a blank, a line end, a closing
parenthesis or a semicolon. `Opens s P` says so for a text that anything may follow, such as one
that ends with a blank. With the rules for putting texts together (`Spells.append`, `Opens.append`)
the tokens of a text are found without looking at its bytes.
-/

namespace FunLang.Lexer

/-! ## Where tokens begin and end -/

/-- A byte that ends every token before it. -/
def isBreak (b : UInt8) : Bool := b == 0x20 || b == 0x0A || b == 0x29 || b == 0x3B

/-- The input ends or goes on with a byte that ends a token. -/
def Breaks (bs : List UInt8) : Prop := bs.head?.all isBreak = true

theorem Breaks.append {bs cs : List UInt8} (hbs : Breaks bs) (hcs : Breaks cs) :
    Breaks (bs ++ cs) := by
  cases bs with
  | nil => exact hcs
  | cons b bs => exact hbs

theorem breaks_append {bs : List UInt8} (h : bs.head?.any isBreak = true) (cs : List UInt8) :
    Breaks (bs ++ cs) := by
  cases bs with
  | nil => simp at h
  | cons b bs => simpa [Breaks] using h

theorem Breaks.eq_or {bs : List UInt8} (h : Breaks bs) : bs = [] ∨ ∃ b cs, bs = b :: cs ∧
    (b = 0x20 ∨ b = 0x0A ∨ b = 0x29 ∨ b = 0x3B) := by
  cases bs with
  | nil => exact Or.inl rfl
  | cons b cs =>
      have hb : isBreak b = true := h
      simp only [isBreak, Bool.or_eq_true, beq_iff_eq, or_assoc] at hb
      exact Or.inr ⟨b, cs, rfl, hb⟩

/-- A run of bytes with a property that no break has ends at a break. -/
theorem Breaks.takeWhile_append {p : UInt8 → Bool} (hp : ∀ b, isBreak b = true → p b = false)
    {bs rest : List UInt8} (hbs : ∀ b ∈ bs, p b = true) (hrest : Breaks rest) :
    (bs ++ rest).takeWhile p = bs ∧ (bs ++ rest).dropWhile p = rest := by
  rw [List.takeWhile_append_of_pos hbs, List.dropWhile_append_of_pos hbs]
  cases rest with
  | nil => simp
  | cons b rest => simp [hp b hrest]

/-- A byte that belongs to no gap and does not end the input. -/
def startsLexeme (b : UInt8) : Bool := b != 0 && b != 0x0A && !isBlank b && b != 0x2F

theorem tokensFrom_lexeme {b : UInt8} (hb : startsLexeme b = true) {bs : List UInt8} {l : Lexeme}
    (hl : lexeme b bs = l) (hk : l.kind ≠ .eof) (n : Nat) (p : Pos) :
    tokensFrom (n + 1) ⟨b :: bs, p⟩ =
      ⟨l.kind, l.literal, p⟩ :: tokensFrom n ⟨l.rest, p.right l.width⟩ := by
  simp only [startsLexeme, Bool.and_eq_true, bne_iff_ne, Bool.not_eq_true', ne_eq] at hb
  obtain ⟨⟨⟨hzero, hline⟩, hblank⟩, hslash⟩ := hb
  have hgap : skipGap (b :: bs) p = .passed ⟨b :: bs, p⟩ := by
    rw [skipGap.eq_def]
    simp only [hline, hblank, hslash, if_false, Bool.false_eq_true]
  have hnext : next ⟨b :: bs, p⟩ = (⟨l.kind, l.literal, p⟩, ⟨l.rest, p.right l.width⟩) := by
    simp only [next, hgap, hzero, if_false, hl]
  simp only [tokensFrom, hnext, hk, if_false]

/-- A blank or a line end. -/
def isGap (b : UInt8) : Bool := isBlank b || b == 0x0A

theorem skipGap_cons {b : UInt8} (hb : isGap b = true) (bs : List UInt8) (p : Pos) :
    ∃ p', skipGap (b :: bs) p = skipGap bs p' := by
  rw [skipGap.eq_def]
  by_cases hline : b = 0x0A
  · exact ⟨p.nextLine, by simp only [hline, if_true]⟩
  · have hblank : isBlank b = true := by simpa [isGap, hline] using hb
    exact ⟨p.right 1, by simp only [hline, hblank, if_false, if_true]⟩

theorem tokensFrom_gap {b : UInt8} (hb : isGap b = true) (bs : List UInt8) (n : Nat) (p : Pos) :
    ∃ p', tokensFrom (n + 1) ⟨b :: bs, p⟩ = tokensFrom (n + 1) ⟨bs, p'⟩ := by
  obtain ⟨p', hgap⟩ := skipGap_cons hb bs p
  have hnext : next ⟨b :: bs, p⟩ = next ⟨bs, p'⟩ := by simp only [next, hgap]
  exact ⟨p', by simp only [tokensFrom, hnext]⟩

/-! ## Properties of token sequences -/

/-- A single token with its kind and text. -/
def IsToken (k : TokenKind) (s : String) (ts : List Token) : Prop :=
  ∃ t, ts = [t] ∧ t.kind = k ∧ t.literal = Text.encode s

/-- Two parts, one after the other. -/
def Concat (P Q : List Token → Prop) (ts : List Token) : Prop :=
  ∃ us vs, ts = us ++ vs ∧ P us ∧ Q vs

theorem concat_nil_left {P : List Token → Prop} {ts : List Token} :
    Concat (· = []) P ts ↔ P ts := by
  simp [Concat]

theorem concat_nil_right {P : List Token → Prop} {ts : List Token} :
    Concat P (· = []) ts ↔ P ts := by
  simp [Concat]

/-! ## Spelling -/

/-- Before a rest with the property `B`, the text `s` is cut into tokens with the property `P`. -/
def SpellsBefore (B : List UInt8 → Prop) (s : String) (P : List Token → Prop) : Prop :=
  ∀ (rest : List UInt8) (p : Pos) (n : Nat), B rest → (Text.encode s ++ rest).length < n →
    ∃ ts p' n', P ts ∧ rest.length < n' ∧
      tokensFrom n ⟨Text.encode s ++ rest, p⟩ = ts ++ tokensFrom n' ⟨rest, p'⟩

def Spells (s : String) (P : List Token → Prop) : Prop := SpellsBefore Breaks s P

def Opens (s : String) (P : List Token → Prop) : Prop := SpellsBefore (fun _ => True) s P

section Rules

variable {B C : List UInt8 → Prop} {s t : String} {P Q : List Token → Prop}

theorem SpellsBefore.mono (h : SpellsBefore B s P) (hPQ : ∀ ts, P ts → Q ts) :
    SpellsBefore B s Q := by
  intro rest p n hrest hn
  obtain ⟨ts, p', n', hts, hn', heq⟩ := h rest p n hrest hn
  exact ⟨ts, p', n', hPQ ts hts, hn', heq⟩

/-- What the second text has to spell may depend on the tokens of the first one. -/
theorem SpellsBefore.bind {R : List Token → Prop} (hs : SpellsBefore B s P)
    (ht : ∀ us, P us → SpellsBefore C t fun vs => R (us ++ vs))
    (hBC : ∀ rest, C rest → B (Text.encode t ++ rest)) : SpellsBefore C (s ++ t) R := by
  intro rest p n hrest hn
  rw [Text.encode_append, List.append_assoc] at hn ⊢
  obtain ⟨us, p₁, n₁, hus, hn₁, heq₁⟩ := hs _ p n (hBC rest hrest) hn
  obtain ⟨vs, p₂, n₂, hvs, hn₂, heq₂⟩ := ht us hus rest p₁ n₁ hrest hn₁
  exact ⟨us ++ vs, p₂, n₂, hvs, hn₂, by rw [heq₁, heq₂, List.append_assoc]⟩

theorem SpellsBefore.append (hs : SpellsBefore B s P) (ht : SpellsBefore C t Q)
    (hBC : ∀ rest, C rest → B (Text.encode t ++ rest)) : SpellsBefore C (s ++ t) (Concat P Q) :=
  hs.bind (fun us hus => ht.mono fun vs hvs => ⟨us, vs, rfl, hus, hvs⟩) hBC

theorem Spells.mono (h : Spells s P) (hPQ : ∀ ts, P ts → Q ts) : Spells s Q :=
  SpellsBefore.mono h hPQ

theorem Opens.mono (h : Opens s P) (hPQ : ∀ ts, P ts → Q ts) : Opens s Q :=
  SpellsBefore.mono h hPQ

theorem Opens.spells (h : Opens s P) : Spells s P := fun rest p n _ => h rest p n trivial

theorem Opens.bind {R : List Token → Prop} (hs : Opens s P)
    (ht : ∀ us, P us → Spells t fun vs => R (us ++ vs)) : Spells (s ++ t) R :=
  SpellsBefore.bind hs ht fun _ _ => trivial

theorem Opens.append_opens (hs : Opens s P) (ht : Opens t Q) : Opens (s ++ t) (Concat P Q) :=
  SpellsBefore.append hs ht fun _ _ => trivial

theorem Opens.append (hs : Opens s P) (ht : Spells t Q) : Spells (s ++ t) (Concat P Q) :=
  SpellsBefore.append hs ht fun _ _ => trivial

theorem Spells.append (hs : Spells s P) (ht : Spells t Q) (hb : Breaks (Text.encode t)) :
    Spells (s ++ t) (Concat P Q) :=
  SpellsBefore.append hs ht fun _ hrest => hb.append hrest

/-- Here `t` must not be empty, since anything may follow it. -/
theorem Spells.append_opens (hs : Spells s P) (ht : Opens t Q)
    (hb : (Text.encode t).head?.any isBreak = true) : Opens (s ++ t) (Concat P Q) :=
  SpellsBefore.append hs ht fun rest _ => breaks_append hb rest

end Rules

/-- The tokens of a text at the end of the input are those it spells and the end. -/
theorem Spells.tokensFrom_eq {s : String} {P : List Token → Prop} (h : Spells s P) (p : Pos) {n : Nat}
    (hn : (Text.encode s).length < n) :
    ∃ ts z, tokensFrom n ⟨Text.encode s, p⟩ = ts ++ [z] ∧ P ts ∧ z.kind = .eof := by
  obtain ⟨ts, p', n', hts, hn', heq⟩ := h [] p n rfl (by simpa using hn)
  obtain ⟨n', rfl⟩ : ∃ m, n' = m + 1 := ⟨n' - 1, by simp at hn'; omega⟩
  rw [List.append_nil] at heq
  exact ⟨ts, .endAt p', heq, hts, rfl⟩

/-- The tokens of a whole text are those it spells and the end of the input. -/
theorem Spells.tokenize_eq {s : String} {P : List Token → Prop} (h : Spells s P) :
    ∃ ts z, tokenize (Text.encode s) = ts ++ [z] ∧ P ts ∧ z.kind = .eof :=
  h.tokensFrom_eq .start (Nat.lt_succ_self _)

/-- The empty text spells no tokens. -/
theorem Spells.nil_of_empty {P : List Token → Prop} (h : Spells "" P) : P [] := by
  obtain ⟨ts, p, n, hts, hn, heq⟩ := h [] .start 1 rfl Nat.zero_lt_one
  obtain ⟨n, rfl⟩ : ∃ m, n = m + 1 := ⟨n - 1, by simp at hn; omega⟩
  -- the end of the input is a token on both sides, so there is room for no other
  have hlength : [Token.endAt .start].length = (ts ++ [Token.endAt p]).length :=
    congrArg List.length heq
  have hnil : ts = [] := List.eq_nil_of_length_eq_zero (by simpa using hlength)
  exact hnil ▸ hts

/-! ## Gaps -/

theorem tokensFrom_gaps {gs : List UInt8} (hgs : gs.all isGap = true) (rest : List UInt8) (p : Pos)
    (n : Nat) : ∃ p', tokensFrom (n + 1) ⟨gs ++ rest, p⟩ = tokensFrom (n + 1) ⟨rest, p'⟩ := by
  induction gs generalizing p with
  | nil => exact ⟨p, rfl⟩
  | cons g gs ih =>
      simp only [List.all_cons, Bool.and_eq_true] at hgs
      obtain ⟨p₁, hg⟩ := tokensFrom_gap hgs.1 (gs ++ rest) n p
      obtain ⟨p₂, hgs⟩ := ih hgs.2 p₁
      exact ⟨p₂, hg.trans hgs⟩

theorem opens_gap {g : String} (hg : (Text.encode g).all isGap = true) : Opens g (· = []) := by
  intro rest p n _ hn
  obtain ⟨n, rfl⟩ : ∃ m, n = m + 1 := ⟨n - 1, by omega⟩
  obtain ⟨p', heq⟩ := tokensFrom_gaps hg rest p n
  rw [List.length_append] at hn
  exact ⟨[], p', n + 1, rfl, by omega, heq⟩

theorem Spells.after_gap {g s : String} {P : List Token → Prop}
    (hg : (Text.encode g).all isGap = true) (h : Spells s P) : Spells (g ++ s) P :=
  ((opens_gap hg).append h).mono fun _ => concat_nil_left.mp

theorem Spells.before_gap {g s : String} {P : List Token → Prop} (h : Spells s P)
    (hg : (Text.encode g).all isGap = true) (hb : Breaks (Text.encode g)) : Spells (s ++ g) P :=
  (h.append (opens_gap hg).spells hb).mono fun _ => concat_nil_right.mp

theorem spells_empty : Spells "" (· = []) := (opens_gap rfl).spells

/-- Two gaps, the second of which ends the token before it. -/
def areGaps (u v : String) : Bool :=
  (Text.encode u).all isGap && (Text.encode v).all isGap && (Text.encode v).head?.any isBreak

/-- A text between two gaps. -/
theorem Spells.framed {s m : String} {P : List Token → Prop} (h : Spells s P) (u v : String)
    (huv : areGaps u v = true) (hm : m = u ++ s ++ v) : Opens m P := by
  simp only [areGaps, Bool.and_eq_true] at huv
  obtain ⟨⟨hu, hv⟩, hbreak⟩ := huv
  rw [hm]
  exact ((h.after_gap hu).append_opens (opens_gap hv) hbreak).mono fun _ => concat_nil_right.mp

/-! ## Single tokens -/

theorem spellsBefore_token {B : List UInt8 → Prop} {s : String} {b : UInt8} {bs : List UInt8}
    {k : TokenKind} (hs : Text.encode s = b :: bs) (hb : startsLexeme b = true) (hk : k ≠ .eof)
    (hcut : ∀ rest, B rest → ∃ w, lexeme b (bs ++ rest) = ⟨k, b :: bs, w, rest⟩) :
    SpellsBefore B s (IsToken k s) := by
  intro rest p n hrest hn
  rw [hs, List.cons_append] at hn ⊢
  simp only [List.length_cons, List.length_append] at hn
  obtain ⟨n, rfl⟩ : ∃ m, n = m + 1 := ⟨n - 1, by omega⟩
  obtain ⟨w, hl⟩ := hcut rest hrest
  exact ⟨[⟨k, b :: bs, p⟩], p.right w, n, ⟨_, rfl, rfl, hs.symm⟩, by omega,
    tokensFrom_lexeme hb hl hk n p⟩

/-- The symbols that a break may follow, with their kinds. -/
def symbols : List (String × TokenKind) :=
  [("=", .assign), ("<", .lt), (">", .gt), ("<=", .leq), (">=", .geq), ("->", .arrow),
    ("-", .minus), ("+", .plus), ("*", .star), (")", .rparen), ("|", .bar), (":", .colon),
    (";", .semicolon)]

theorem spells_symbol {s : String} {k : TokenKind} (h : (s, k) ∈ symbols) :
    Spells s (IsToken k s) := by
  simp only [symbols, List.mem_cons, Prod.mk.injEq, List.not_mem_nil, or_false] at h
  -- which symbol it is, and then how the rest begins: the longer symbols need no such byte
  rcases h with h | h | h | h | h | h | h | h | h | h | h | h | h <;> obtain ⟨rfl, rfl⟩ := h <;>
    refine spellsBefore_token rfl rfl (by simp) fun rest hrest => ?_ <;>
    rcases hrest.eq_or with rfl | ⟨b, cs, rfl, rfl | rfl | rfl | rfl⟩ <;>
    exact ⟨_, rfl⟩

theorem opens_lparen : Opens "(" (IsToken .lparen "(") :=
  spellsBefore_token rfl rfl (by simp) fun _ _ => ⟨_, rfl⟩

theorem opens_lambda : Opens "\\" (IsToken .lambda "\\") :=
  spellsBefore_token rfl rfl (by simp) fun _ _ => ⟨_, rfl⟩

/-- A text in parentheses. -/
theorem Spells.paren {s : String} {P : List Token → Prop} (h : Spells s P) :
    Spells ("(" ++ s ++ ")") fun ts =>
      ∃ l us r, ts = l :: (us ++ [r]) ∧ l.kind = .lparen ∧ P us ∧ r.kind = .rparen := by
  have hclose : Spells ")" (IsToken .rparen ")") := spells_symbol (by simp [symbols])
  refine ((opens_lparen.append h).append hclose rfl).mono ?_
  rintro _ ⟨_, _, rfl, ⟨_, us, rfl, ⟨l, rfl, hl, -⟩, hus⟩, r, rfl, hr, -⟩
  exact ⟨l, us, r, rfl, hl, hus, hr⟩

/-! ## Words -/

theorem symbol?_eq_none {b : UInt8} (hb : isWordPart b = true) (bs : List UInt8) :
    symbol? b bs = none := by
  have hne : ∀ c, isWordPart c = false → (b = c) = False := by
    intro c hc
    simp only [eq_iff_iff, iff_false]
    rintro rfl
    simp [hb] at hc
  simp (disch := decide) only [symbol?, hne, if_false]

theorem startsLexeme_of_isWordPart {b : UInt8} (hb : isWordPart b = true) :
    startsLexeme b = true := by
  have hne : ∀ c, isWordPart c = false → (b == c) = false := by
    intro c hc
    simp only [beq_eq_false_iff_ne, ne_eq]
    rintro rfl
    simp [hb] at hc
  simp (disch := decide) [startsLexeme, isBlank, bne, hne]

theorem isWordPart_of_isBreak {b : UInt8} (hb : isBreak b = true) : isWordPart b = false := by
  simp only [isBreak, Bool.or_eq_true, beq_iff_eq] at hb
  rcases hb with ((rfl | rfl) | rfl) | rfl <;> rfl

theorem isDigit_of_isBreak {b : UInt8} (hb : isBreak b = true) : isDigit b = false := by
  have := isWordPart_of_isBreak hb
  simp_all [isWordPart]

theorem toNat_lt_of_isWordPart {b : UInt8} (hb : isWordPart b = true) : b.toNat < 128 := by
  simp only [isWordPart, isLetter, isDigit, Text.byteIn, Bool.or_eq_true, Bool.and_eq_true,
    decide_eq_true_eq, beq_iff_eq, UInt8.le_iff_toNat_le, ← UInt8.toNat_inj,
    UInt8.reduceToNat] at hb
  omega

/-- A letter or an underscore, and then letters, underscores, digits and apostrophes. -/
def isWord (x : String) : Bool :=
  match Text.encode x with
  | [] => false
  | b :: bs => isLetter b && bs.all isWordPart

theorem exists_of_isWord {x : String} (hx : isWord x = true) : ∃ b bs, Text.encode x = b :: bs ∧
    isLetter b = true ∧ ∀ c ∈ Text.encode x, isWordPart c = true := by
  unfold isWord at hx
  cases hbs : Text.encode x with
  | nil => simp [hbs] at hx
  | cons b bs =>
      simp only [hbs, Bool.and_eq_true, List.all_eq_true] at hx
      refine ⟨b, bs, rfl, hx.1, ?_⟩
      rintro c (_ | ⟨_, hc⟩)
      · simp [isWordPart, hx.1]
      · exact hx.2 c hc

theorem spells_word {x : String} (hx : isWord x = true) : Spells x (IsToken (.ofWord x) x) := by
  obtain ⟨b, bs, hbs, hb, hparts⟩ := exists_of_isWord hx
  have hpart : isWordPart b = true := by simp [isWordPart, hb]
  have hquote : b ≠ 0x22 := by
    rintro rfl
    simp [isLetter, Text.byteIn] at hb
  have hkind : TokenKind.ofWord x ≠ .eof := TokenKind.ofWord_ne (by decide) (by decide) x
  refine spellsBefore_token hbs (startsLexeme_of_isWordPart hpart) hkind fun rest hrest => ?_
  have htail : ∀ c ∈ bs, isWordPart c = true := fun c hc => hparts c (by simp [hbs, hc])
  obtain ⟨htake, hdrop⟩ := hrest.takeWhile_append (fun _ => isWordPart_of_isBreak) htail
  refine ⟨bs.length + 1, ?_⟩
  simp only [lexeme, symbol?_eq_none hpart, hquote, hb, if_true, if_false, runLexeme, htake, hdrop,
    List.length_cons]
  rw [← hbs, Text.decode_encode]

theorem spells_keyword {w : String} {k : TokenKind} (h : (w, k) ∈ TokenKind.keywords) :
    Spells w (IsToken k w) := by
  -- the table of reserved words is small enough to be run through
  have hkeywords : ∀ p ∈ TokenKind.keywords, isWord p.1 = true ∧ TokenKind.ofWord p.1 = p.2 := by
    decide
  obtain ⟨hword, hkind⟩ := hkeywords _ h
  have hspells := spells_word hword
  rwa [hkind] at hspells

/-! ## Numbers -/

theorem isDigit_ofNat {c : Char} (h : c.isDigit = true) : isDigit (UInt8.ofNat c.toNat) = true := by
  have hlt := Text.toNat_ofNat_of_lt (Text.toNat_lt_of_isDigit h)
  simp only [Char.isDigit, Bool.and_eq_true, decide_eq_true_eq, UInt32.le_iff_toNat_le] at h
  simp only [isDigit, Text.byteIn, Bool.and_eq_true, decide_eq_true_eq, UInt8.le_iff_toNat_le, hlt]
  exact h

theorem isLetter_of_isDigit {b : UInt8} (h : isDigit b = true) : isLetter b = false := by
  rw [Bool.eq_false_iff]
  intro h'
  simp only [isLetter, isDigit, Text.byteIn, Bool.or_eq_true, Bool.and_eq_true, decide_eq_true_eq,
    beq_iff_eq, UInt8.le_iff_toNat_le, ← UInt8.toNat_inj, UInt8.reduceToNat] at h h'
  omega

theorem exists_encode_repr (n : Nat) : ∃ b bs, Text.encode n.repr = b :: bs ∧ isDigit b = true ∧
    ∀ c ∈ bs, isDigit c = true := by
  have hdigits : ∀ b ∈ Text.encode n.repr, isDigit b = true := by
    rw [Text.encode_repr]
    intro b hb
    obtain ⟨c, hc, rfl⟩ := List.mem_map.mp hb
    exact isDigit_ofNat (Nat.isDigit_of_mem_toDigits (by omega) (by omega) hc)
  cases hbs : Text.encode n.repr with
  | nil =>
      rw [Text.encode_repr, List.map_eq_nil_iff] at hbs
      exact absurd hbs Nat.toDigits_ne_nil
  | cons b bs =>
      rw [hbs] at hdigits
      have htail : ∀ c ∈ bs, isDigit c = true := fun c hc => hdigits c (List.mem_cons_of_mem _ hc)
      exact ⟨b, bs, rfl, hdigits b List.mem_cons_self, htail⟩

theorem spells_repr (n : Nat) : Spells n.repr (IsToken .intLit n.repr) := by
  obtain ⟨b, bs, hbs, hb, hdigits⟩ := exists_encode_repr n
  have hpart : isWordPart b = true := by simp [isWordPart, hb]
  have hne : ∀ c, isDigit c = false → b ≠ c := by
    rintro c hc rfl
    simp [hb] at hc
  have hletter : isLetter b = false := isLetter_of_isDigit hb
  refine spellsBefore_token hbs (startsLexeme_of_isWordPart hpart) (by simp) fun rest hrest => ?_
  obtain ⟨htake, hdrop⟩ := hrest.takeWhile_append (fun _ => isDigit_of_isBreak) hdigits
  refine ⟨bs.length + 1, ?_⟩
  simp only [lexeme, symbol?_eq_none hpart, hne 0x22 rfl, hletter, hb, if_true, if_false, runLexeme,
    htake, hdrop, List.length_cons, Bool.false_eq_true]

/-- A minus sign before digits is a token of its own. -/
theorem spells_negative (n : Nat) :
    Spells ("-" ++ n.repr) (Concat (IsToken .minus "-") (IsToken .intLit n.repr)) := by
  obtain ⟨b, bs, hbs, hb, -⟩ := exists_encode_repr n
  -- no break follows the sign, but a digit does, and so it is not the start of an arrow
  have hminus : SpellsBefore (fun rest => rest.head? = some b) "-" (IsToken .minus "-") := by
    refine spellsBefore_token (show Text.encode "-" = [0x2D] from rfl) rfl (by simp)
      fun rest hrest => ⟨1, ?_⟩
    have hne : b ≠ 0x3E := by
      rintro rfl
      simp [isDigit, Text.byteIn] at hb
    simp [lexeme, symbol?, hrest, hne]
  exact hminus.append (spells_repr n) fun rest _ => by rw [hbs]; rfl

end FunLang.Lexer
