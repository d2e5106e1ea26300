import FunLang.Number.Reading
import FunLang.Text.Quoted
import FunLang.Text.Utf8

set_option autoImplicit false

/-!
# Durations

A duration is a number of nanoseconds. It is written as a sequence of numbers with units, such as
`1h30m` or `1.5s`.
-/

namespace FunLang.Duration

def microsecond : Nat := 1000

def millisecond : Nat := 1000 * microsecond

def second : Nat := 1000 * millisecond

def minute : Nat := 60 * second

def hour : Nat := 60 * minute

/-- The nanoseconds of a unit. -/
def unit? : String → Option Nat
  | "ns" => some 1
  | "us" => some microsecond
  | "µs" => some microsecond
  | "μs" => some microsecond
  | "ms" => some millisecond
  | "s" => some second
  | "m" => some minute
  | "h" => some hour
  | _ => none

/-- The largest magnitude of a duration. -/
def limit : Nat := Number.integerLimit

/-- What can be wrong with a written duration. -/
inductive ReadError where
  | invalid
  | missingUnit
  | unknownUnit (unit : String)
deriving DecidableEq, Repr, Inhabited

/-- A character as messages about durations quote it: only what is plain stays as it is. -/
def quoteChar (c : Char) : String :=
  if c.toNat < 0x20 ∨ 0x80 ≤ c.toNat then
    String.join ((String.utf8EncodeChar c).map fun b => "\\x" ++ Text.hex 2 b.toNat)
  else if c = '"' ∨ c = '\\' then "\\" ++ c.toString
  else c.toString

def quote (s : String) : String := "\"" ++ String.join (s.toList.map quoteChar) ++ "\""

/-- The text about a duration that cannot be read. -/
def ReadError.message (s : String) : ReadError → String
  | invalid => s!"time: invalid duration {quote s}"
  | missingUnit => s!"time: missing unit in duration {quote s}"
  | unknownUnit unit => s!"time: unknown unit {quote unit} in duration {quote s}"

/-! ## Reading -/

/-- The digits behind a point, as a fraction. -/
structure Fraction where
  /-- The number that the digits make up. -/
  digits : Nat
  /-- What that number is divided by: a power of ten, multiplied up digit by digit and rounded each
  time, unless it is too large. -/
  scale? : Option Number.Binary64
  /-- Whether a digit has been passed over. -/
  full : Bool
deriving DecidableEq, Repr, Inhabited

/-- A fraction with one more digit. As many digits as a 64-bit number can hold count; the others are
passed over. -/
def Fraction.push (f : Fraction) (c : Char) : Fraction :=
  let next := f.digits * 10 + (c.toNat - '0'.toNat)
  if f.full || (limit - 1) / 10 < f.digits || limit < next then { f with full := true }
  else { f with digits := next, scale? := f.scale?.bind (·.mul? ⟨10, 0⟩) }

/-- The fraction of some digits. -/
def Fraction.ofDigits (cs : List Char) : Fraction := cs.foldl .push ⟨0, some ⟨1, 0⟩, false⟩

/-- The nanoseconds of a fraction of a unit, rounded at each step as binary numbers are. -/
def Fraction.of (f : Fraction) (unit : Nat) : Nat :=
  let product? := do
    let share ← (← Number.Binary64.ofRatio? unit 1).div? (← f.scale?)
    (← Number.Binary64.ofRatio? f.digits 1).mul? share
  (product?.map (·.floor)).getD 0

/-- Reads one number with its unit from characters that are not empty, as nanoseconds. -/
def readGroup (cs : List Char) : Except ReadError (Nat × List Char) := do
  let whole := cs.takeWhile Char.isDigit
  let rest := cs.dropWhile Char.isDigit
  let (behind, rest) :=
    match rest with
    | '.' :: rest => (rest.takeWhile Char.isDigit, rest.dropWhile Char.isDigit)
    | rest => ([], rest)
  let n := Number.digitsFrom 10 0 whole
  if limit < n then throw .invalid
  if whole.isEmpty && behind.isEmpty then throw .invalid
  let isUnit (c : Char) : Bool := c != '.' && !c.isDigit
  let name := rest.takeWhile isUnit
  if name.isEmpty then throw .missingUnit
  let some unit := unit? (String.ofList name) | throw (.unknownUnit (String.ofList name))
  if limit / unit < n then throw .invalid
  let total := n * unit + (Fraction.ofDigits behind).of unit
  if limit < total then throw .invalid
  return (total, rest.dropWhile isUnit)

/-- Reads numbers with units after a sum. Each round reads at least one character. The sum is a word of
64 bits: twice the largest magnitude is zero. -/
def readGroups : (rounds : Nat) → (sum : Nat) → List Char → Except ReadError Nat
  | _, sum, [] => .ok sum
  | 0, sum, _ => .ok sum
  | rounds + 1, sum, cs => do
    let (n, rest) ← readGroup cs
    let sum := (sum + n) % (2 * limit)
    if limit < sum then throw .invalid
    readGroups rounds sum rest

/-- Reads a duration. -/
def read (s : String) : Except ReadError Int := do
  let (negative, cs) := Number.splitSign s.toList
  if cs = ['0'] then return 0
  if cs.isEmpty then throw .invalid
  let n ← readGroups cs.length 0 cs
  if negative then return -(n : Int)
  else if limit ≤ n then throw .invalid
  else return n

/-! ## Showing -/

/-- A number of `10 ^ places` parts of a unit, without the zeros at its end. -/
def decimal (n places : Nat) : String :=
  let parts := Nat.pow 10 places
  let digits := Nat.toDigits 10 (n % parts)
  let padded := List.replicate (places - digits.length) '0' ++ digits
  let kept := (padded.reverse.dropWhile (· == '0')).reverse
  toString (n / parts) ++ if n % parts = 0 then "" else "." ++ String.ofList kept

/-- A magnitude as it is shown: hours, minutes and seconds, or the unit below a second that fits. -/
def renderMagnitude (n : Nat) : String :=
  if n = 0 then "0s"
  else if n < microsecond then decimal n 0 ++ "ns"
  else if n < millisecond then decimal n 3 ++ "µs"
  else if n < second then decimal n 6 ++ "ms"
  else
    let minutes := n / minute
    let seconds := decimal (n % minute) 9 ++ "s"
    if minutes = 0 then seconds
    else if minutes < 60 then s!"{minutes}m{seconds}"
    else s!"{minutes / 60}h{minutes % 60}m{seconds}"

def render (d : Int) : String :=
  if d < 0 then "-" ++ renderMagnitude d.natAbs else renderMagnitude d.natAbs

end FunLang.Duration
