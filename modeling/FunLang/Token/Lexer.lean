import FunLang.Token

set_option autoImplicit false

/-!
# Reading tokens

A source text is a sequence of bytes. Between two tokens stands a gap: blanks, line ends and
comments. `skipGap` passes over a gap, `lexeme` reads the token that starts at a byte, and
`tokenize` alternates the two until the input ends. A NUL byte ends the input like its last byte
does.

A string that is not closed on its line is one illegal token that takes the byte at which the
search for its end stopped, so the line end after it starts no new line.
-/

namespace FunLang.Lexer

/-- A letter or an underscore. -/
def isLetter (b : UInt8) : Bool := Text.byteIn 0x61 0x7A b || Text.byteIn 0x41 0x5A b || b == 0x5F

/-- A decimal digit. -/
def isDigit (b : UInt8) : Bool := Text.byteIn 0x30 0x39 b

/-- A byte that continues a word: a letter, a digit or an apostrophe. -/
def isWordPart (b : UInt8) : Bool := isLetter b || isDigit b || b == 0x27

/-- A byte that a string may hold: anything but a quote, a line end and NUL. -/
def isStringPart (b : UInt8) : Bool := b != 0x22 && b != 0x0A && b != 0

/-- A space, a tab or a carriage return. -/
def isBlank (b : UInt8) : Bool := b == 0x20 || b == 0x09 || b == 0x0D

/-- The bytes still to be read and the place of the first of them. -/
structure Cursor where
  rest : List UInt8
  pos : Pos
deriving DecidableEq, Repr, Inhabited

/-! ## Gaps -/

/-- What lies behind a gap: something that is no gap, or the end of the input inside a comment that
began at `start`. -/
inductive Gap where
  | passed (c : Cursor)
  | unclosed (start : Pos) (c : Cursor)
deriving DecidableEq, Repr

mutual

/-- Passes over blanks, line ends and comments. -/
def skipGap : List UInt8 → Pos → Gap
  | [], p => .passed ⟨[], p⟩
  | b :: bs, p =>
    if b = 0x0A then skipGap bs p.nextLine
    else if isBlank b then skipGap bs (p.right 1)
    else if b = 0x2F then
      match bs with
      | [] => .passed ⟨[b], p⟩
      | c :: cs =>
        if c = 0x2F then skipLine cs (p.right 2)
        else if c = 0x2A then skipBlock p cs (p.right 2)
        else .passed ⟨b :: c :: cs, p⟩
    else .passed ⟨b :: bs, p⟩

/-- Passes over the rest of a comment that ends with its line, and the gap after it. -/
def skipLine : List UInt8 → Pos → Gap
  | [], p => .passed ⟨[], p⟩
  | b :: bs, p =>
    if b = 0x0A then skipGap bs p.nextLine
    else if b = 0 then .passed ⟨b :: bs, p⟩
    else skipLine bs (p.right 1)

/-- Passes over the rest of a comment that needs a closing mark, and the gap after it. -/
def skipBlock (start : Pos) : List UInt8 → Pos → Gap
  | [], p => .unclosed start ⟨[], p⟩
  | b :: bs, p =>
    if b = 0 then .unclosed start ⟨b :: bs, p⟩
    else if b = 0x0A then skipBlock start bs p.nextLine
    else if b = 0x2A then
      match bs with
      | [] => skipBlock start [] (p.right 1)
      | c :: cs =>
        if c = 0x2F then skipGap cs (p.right 2)
        else skipBlock start (c :: cs) (p.right 1)
    else skipBlock start bs (p.right 1)

end

/-! ## Lexemes -/

/-- A token without its place: `width` columns wide, with the bytes after it. -/
structure Lexeme where
  kind : TokenKind
  literal : List UInt8
  width : Nat
  rest : List UInt8
deriving DecidableEq, Repr, Inhabited

/-- An operator or a delimiter: its kind and how many bytes it has. -/
def symbol? (b : UInt8) (bs : List UInt8) : Option (TokenKind × Nat) :=
  if b = 0x3D then some (.assign, 1)
  else if b = 0x3C then if bs.head? = some 0x3D then some (.leq, 2) else some (.lt, 1)
  else if b = 0x3E then if bs.head? = some 0x3D then some (.geq, 2) else some (.gt, 1)
  else if b = 0x2D then if bs.head? = some 0x3E then some (.arrow, 2) else some (.minus, 1)
  else if b = 0x2B then some (.plus, 1)
  else if b = 0x2A then some (.star, 1)
  else if b = 0x5C then some (.lambda, 1)
  else if b = 0x28 then some (.lparen, 1)
  else if b = 0x29 then some (.rparen, 1)
  else if b = 0x7C then some (.bar, 1)
  else if b = 0x3A then some (.colon, 1)
  else if b = 0x3B then some (.semicolon, 1)
  else none

/-- The string that starts with a quote before `bs`. -/
def stringLexeme (bs : List UInt8) : Lexeme :=
  let content := bs.takeWhile isStringPart
  let width := content.length + 2
  match bs.dropWhile isStringPart with
  | [] => ⟨.illegal, Text.encode "unterminated string", width, []⟩
  | b :: rest =>
    if b = 0x22 then ⟨.stringLit, 0x22 :: content ++ [0x22], width, rest⟩
    else ⟨.illegal, Text.encode "unterminated string", width, rest⟩

/-- The longest run of bytes with property `p` that starts with `b`. -/
def runLexeme (kind : List UInt8 → TokenKind) (p : UInt8 → Bool) (b : UInt8) (bs : List UInt8) :
    Lexeme :=
  let word := b :: bs.takeWhile p
  ⟨kind word, word, word.length, bs.dropWhile p⟩

/-- The token that starts with the byte `b`, which neither belongs to a gap nor is NUL. A byte that
starts no token is illegal by itself and shown as the character with its number. -/
def lexeme (b : UInt8) (bs : List UInt8) : Lexeme :=
  match symbol? b bs with
  | some (kind, n) => ⟨kind, (b :: bs).take n, n, (b :: bs).drop n⟩
  | none =>
    if b = 0x22 then stringLexeme bs
    else if isLetter b then runLexeme (fun word => .ofWord (Text.decode word)) isWordPart b bs
    else if isDigit b then runLexeme (fun _ => .intLit) isDigit b bs
    else ⟨.illegal, String.utf8EncodeChar (Char.ofNat b.toNat), 1, bs⟩

/-! ## The token sequence -/

/-- The next token and the cursor behind it. -/
def next (c : Cursor) : Token × Cursor :=
  match skipGap c.rest c.pos with
  | .unclosed start stop => (⟨.illegal, Text.encode "unterminated comment", start⟩, stop)
  | .passed ⟨[], p⟩ => (.endAt p, ⟨[], p⟩)
  | .passed ⟨b :: bs, p⟩ =>
    if b = 0 then (.endAt p, ⟨b :: bs, p⟩)
    else
      let l := lexeme b bs
      (⟨l.kind, l.literal, p⟩, ⟨l.rest, p.right l.width⟩)

/-- At most `n` tokens from the cursor, and the end of the input. -/
def tokensFrom : (n : Nat) → Cursor → List Token
  | 0, c => [.endAt c.pos]
  | n + 1, c =>
    let (t, c') := next c
    if t.kind = .eof then [t] else t :: tokensFrom n c'

/-- The tokens of a source text; the last one is its end. Each other token takes at least one byte,
so there are no more of them than bytes. -/
def tokenize (source : List UInt8) : List Token :=
  tokensFrom (source.length + 1) ⟨source, .start⟩

end FunLang.Lexer
