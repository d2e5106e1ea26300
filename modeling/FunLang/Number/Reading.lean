import FunLang.Number.Binary64

set_option autoImplicit false

/-!
# Written numbers

How numbers are written in settings. Integers may have a sign, a base prefix and underscores between
digits; reals may also have a point, an exponent and hexadecimal digits, or be infinite or no number
at all.
-/

namespace FunLang.Number

/-- What can be wrong with a written number. -/
inductive NumberError where
  | malformed
  | outOfRange
deriving DecidableEq, Repr, Inhabited

def NumberError.message : NumberError → String
  | .malformed => "invalid syntax"
  | .outOfRange => "value out of range"

/-! ## Digits and underscores -/

/-- The value of a digit; letters go on after nine. -/
def digitValue? (c : Char) : Option Nat :=
  if c.isDigit then some (c.toNat - '0'.toNat)
  else if 'a' ≤ c ∧ c ≤ 'z' then some (c.toNat - 'a'.toNat + 10)
  else if 'A' ≤ c ∧ c ≤ 'Z' then some (c.toNat - 'A'.toNat + 10)
  else none

/-- Whether a character is a digit in a base. -/
def isDigitIn (base : Nat) (c : Char) : Bool := (digitValue? c).any (· < base)

/-- The number that digits stand for in a base, after a number that has been read; what is no digit
is passed over. -/
def digitsFrom (base : Nat) (n : Nat) (cs : List Char) : Nat :=
  cs.foldl (fun n c => ((digitValue? c).map (n * base + ·)).getD n) n

/-- A leading sign, and what comes after it. -/
def splitSign : List Char → Bool × List Char
  | '-' :: cs => (true, cs)
  | '+' :: cs => (false, cs)
  | cs => (false, cs)

/-- What stands before a character, as far as underscores are concerned. -/
inductive Before where
  | digit
  | underscore
  | other
deriving DecidableEq

/-- Whether every underscore stands between digits. -/
def separates (isDigit : Char → Bool) : Before → List Char → Bool
  | before, [] => before != .underscore
  | before, c :: cs =>
    if isDigit c then separates isDigit .digit cs
    else if c = '_' then before == .digit && separates isDigit .underscore cs
    else before != .underscore && separates isDigit .other cs

/-- Whether the underscores of a written number are in place. A base prefix counts as a digit. -/
def underscoresOk (cs : List Char) : Bool :=
  match (splitSign cs).2 with
  | '0' :: p :: rest =>
    if p = 'x' ∨ p = 'X' then separates (isDigitIn 16) .digit rest
    else if p ∈ ['b', 'B', 'o', 'O'] then separates (isDigitIn 10) .digit rest
    else separates (isDigitIn 10) .digit (p :: rest)
  | cs => separates (isDigitIn 10) .other cs

/-! ## Integers -/

/-- The base of a written natural number, and its digits. -/
def baseOf : List Char → Nat × List Char
  | '0' :: p :: d :: rest =>
    if p = 'b' ∨ p = 'B' then (2, d :: rest)
    else if p = 'o' ∨ p = 'O' then (8, d :: rest)
    else if p = 'x' ∨ p = 'X' then (16, d :: rest)
    else (8, p :: d :: rest)
  | '0' :: rest => (8, rest)
  | cs => (10, cs)

/-- Reads digits after a number that has been read. Whichever comes first counts: a character that
cannot stand there, or a digit with which the number is above the limit. -/
def readDigits (base limit : Nat) (underscores : Bool) (n : Nat) : List Char → Except NumberError Nat
  | [] => .ok n
  | c :: cs =>
    if underscores && c == '_' then readDigits base limit underscores n cs
    else
      match digitValue? c with
      | none => .error .malformed
      | some d =>
        if base ≤ d then .error .malformed
        else if limit < n * base + d then .error .outOfRange
        else readDigits base limit underscores (n * base + d) cs

/-- The largest natural number that can be read. -/
def naturalLimit : Nat := 0xFFFFFFFFFFFFFFFF

/-- The largest magnitude of an integer, that of the smallest one. -/
def integerLimit : Nat := 0x8000000000000000

/-- Reads a natural number with an optional base prefix and underscores. -/
def readNatural (cs : List Char) : Except NumberError Nat := do
  if cs.isEmpty then throw .malformed
  let (base, digits) := baseOf cs
  let n ← readDigits base naturalLimit true 0 digits
  if cs.contains '_' && !underscoresOk cs then throw .malformed
  return n

/-- Reads a natural number that consists of decimal digits. -/
def readDecimal (cs : List Char) : Except NumberError Nat :=
  if cs.isEmpty then .error .malformed else readDigits 10 naturalLimit false 0 cs

/-- Reads an integer of 64 bits: an optional sign and what `magnitude` reads. -/
def readSigned (magnitude : List Char → Except NumberError Nat) (cs : List Char) :
    Except NumberError Int64 := do
  let (negative, rest) := splitSign cs
  let n ← magnitude rest
  if negative then
    if integerLimit < n then throw .outOfRange else return Int64.ofInt (-(n : Int))
  else if integerLimit ≤ n then throw .outOfRange
  else return Int64.ofNat n

/-! ## Reals -/

/-- A real number that has been read, or what takes the place of one. -/
inductive Real where
  | nan
  | infinite (negative : Bool)
  | finite (negative : Bool) (magnitude : Binary64)
deriving DecidableEq, Repr, Inhabited

/-- Whether a number is below zero. A zero with a sign is not. -/
def Real.isNegative : Real → Bool
  | nan => false
  | infinite negative => negative
  | finite negative x => negative && x.mantissa != 0

/-- Whether a text is a word up to the case of its letters. -/
def isWord (word : String) (cs : List Char) : Bool := cs.map Char.toLower == word.toList

/-- The names for what is no finite number. -/
def readName? (cs : List Char) : Option Real :=
  let (negative, rest) := splitSign cs
  if isWord "inf" rest || isWord "infinity" rest then some (.infinite negative)
  else if isWord "nan" cs then some .nan
  else none

/-- A written real: the number that its digits make up, how many of them stand behind the point, and
the exponent. -/
structure Written where
  base : Nat
  digits : Nat
  places : Nat
  exponent : Int

/-- The digits of an exponent. Beyond four digits it is large enough to count no further. -/
def readExponent (cs : List Char) : Nat :=
  cs.foldl (fun e c => if e < 10000 then digitsFrom 10 e [c] else e) 0

/-- The exponent at the end of a written real, which begins with the given letter. -/
def exponentAfter? (letter : Char) : List Char → Option Int
  | [] => none
  | c :: cs =>
    if c.toLower ≠ letter then none
    else
      let (negative, rest) := splitSign cs
      if (rest.head?.any Char.isDigit) && rest.all (fun c => c.isDigit || c == '_') then
        let e : Int := readExponent rest
        some (if negative then -e else e)
      else none

/-- Reads the unsigned part of a real. A hexadecimal one needs an exponent, and that is one of two. -/
def readWritten? (cs : List Char) : Option Written :=
  let (base, cs) :=
    match cs with
    | '0' :: p :: d :: rest => if p = 'x' ∨ p = 'X' then (16, d :: rest) else (10, cs)
    | _ => (10, cs)
  let isPart (c : Char) : Bool := isDigitIn base c || c == '.' || c == '_'
  let body := cs.takeWhile isPart
  let rest := cs.dropWhile isPart
  let letter := if base = 16 then 'p' else 'e'
  if !body.any (isDigitIn base) || 1 < body.count '.' then none
  else
    let places := ((body.dropWhile (· != '.')).filter (isDigitIn base)).length
    let digits := digitsFrom base 0 body
    match rest with
    | [] => if base = 16 then none else some ⟨base, digits, places, 0⟩
    | _ => (exponentAfter? letter rest).map fun e => ⟨base, digits, places, e⟩

/-- The number nearest to a written real, unless that is too large. -/
def Written.value? (w : Written) : Option Binary64 :=
  let (unit, e) :=
    if w.base = 16 then (2, w.exponent - 4 * w.places) else (10, w.exponent - w.places)
  Binary64.ofRatio? (w.digits * Nat.pow unit e.toNat) (Nat.pow unit (-e).toNat)

/-- Reads a real number. -/
def readReal (s : String) : Except NumberError Real :=
  let cs := s.toList
  match readName? cs with
  | some r => .ok r
  | none =>
    let (negative, rest) := splitSign cs
    match readWritten? rest with
    | none => .error .malformed
    | some w =>
      if cs.contains '_' && !underscoresOk cs then .error .malformed
      else
        match w.value? with
        | none => .error .outOfRange
        | some x => .ok (.finite negative x)

end FunLang.Number
