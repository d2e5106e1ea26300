import FunLang.Number.Reading
import FunLang.Text.LetterCase
import FunLang.Text.Quoted
import FunLang.Text.Utf8

set_option autoImplicit false

/-!
# Step budgets

A budget is written as a number with an optional unit: `500`, `10k`, `2.5M`. Units are powers of a
thousand, in either case, and may be followed by `b` or `ib`.
-/

namespace FunLang.Steps

/-- Where a size is divided into its number and its unit: after the last digit, point or space. -/
def isNumberEnd (c : Char) : Bool := c.isDigit || c == '.' || c == ' '

/-- The number and the unit of a size, as texts. A space between them belongs to neither. -/
def split? (s : String) : Option (String × String) :=
  let back := s.toList.reverse
  let unit := String.ofList (back.takeWhile fun c => !isNumberEnd c).reverse
  match back.dropWhile fun c => !isNumberEnd c with
  | [] => none
  | ' ' :: num => some (String.ofList num.reverse, unit)
  | num => some (String.ofList num.reverse, unit)

/-- The factor of the letter that begins a unit. -/
def factor? : Char → Option Nat
  | 'k' => some 1000
  | 'm' => some 1000000
  | 'g' => some 1000000000
  | 't' => some 1000000000000
  | 'p' => some 1000000000000000
  | _ => none

/-- The factor of a unit in small letters. After the letter a unit of two bytes ends with `b` and one
of three with `ib`. -/
def unitFactor? (unit : String) : Option Nat :=
  if unit = "" ∨ unit = "b" then some 1
  else
    match unit.toList with
    | [] => none
    | c :: rest =>
      let bytes := Text.byteLength unit
      if (bytes = 2 ∧ rest ≠ ['b']) ∨ (bytes = 3 ∧ rest ≠ ['i', 'b']) then none else factor? c

/-- The product of a real number and a factor as an integer of 64 bits. What does not fit is the
smallest integer. -/
def truncate (r : Number.Real) (factor : Nat) : Int64 :=
  match r with
  | .finite _ x =>
    match x.mul? ⟨factor, 0⟩ with
    | some y => if y.floor < Number.integerLimit then Int64.ofNat y.floor else Int64.minValue
    | none => Int64.minValue
  | _ => Int64.minValue

/-- What can be wrong with a written budget. -/
inductive ReadError where
  /-- There is no number, or one below zero. -/
  | invalid
  | badNumber (num : String) (e : Number.NumberError)
  | badUnit (unit : String)
  /-- The number does not fit. -/
  | negative
deriving DecidableEq, Repr, Inhabited

/-- The text about a budget that cannot be read. -/
def ReadError.message (s : String) : ReadError → String
  | invalid => s!"invalid size: '{s}'"
  | badNumber num e => s!"strconv.ParseFloat: parsing {Text.quote num}: {e.message}"
  | badUnit unit => s!"invalid suffix: '{unit}'"
  | negative => s!"step budget must not be negative: {s}"

/-- The factor of a written unit. One of more than three bytes is none, and is named as it is written;
others are named in small letters. -/
def readUnit (unit : String) : Except ReadError Nat :=
  if 3 < Text.byteLength unit then .error (.badUnit unit)
  else
    let unit := String.ofList (unit.toList.map Text.toLower)
    match unitFactor? unit with
    | some factor => .ok factor
    | none => .error (.badUnit unit)

/-- Reads a budget. -/
def read (s : String) : Except ReadError Int64 :=
  match split? s with
  | none => .error .invalid
  | some (num, unit) =>
    match Number.readReal num with
    | .error e => .error (.badNumber num e)
    | .ok r =>
      if r.isNegative then .error .invalid
      else
        match readUnit unit with
        | .error e => .error e
        | .ok factor =>
          let n := truncate r factor
          if n < 0 then .error .negative else .ok n

/-- A budget as it is shown, with the largest unit that divides it. -/
def render (n : Int64) : String :=
  let n := n.toInt
  if n = 0 then "0"
  else if n % 1000000000 = 0 then toString (n / 1000000000) ++ "G"
  else if n % 1000000 = 0 then toString (n / 1000000) ++ "M"
  else if n % 1000 = 0 then toString (n / 1000) ++ "k"
  else toString n

end FunLang.Steps
