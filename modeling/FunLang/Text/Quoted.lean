import FunLang.Text.Printable
import FunLang.Text.Utf8

set_option autoImplicit false

/-!
# Quoted text

A text between double quotes, on one line, in which quotes, backslashes and everything that is
not printable are escaped. Bytes that are not the bytes of a text can be quoted too. Which characters are
printable depends on the table that is used for it, so `quoteBytes` is given one.
-/

namespace FunLang.Text

/-- `n` as at least `width` lower-case hexadecimal digits. -/
def hex (width n : Nat) : String :=
  let digits := Nat.toDigits 16 n
  String.ofList (List.replicate (width - digits.length) '0' ++ digits)

/-- The escaped form of a character that is not printable. -/
def escapeChar (c : Char) : String :=
  match c.toNat with
  | 0x07 => "\\a"
  | 0x08 => "\\b"
  | 0x0C => "\\f"
  | 0x0A => "\\n"
  | 0x0D => "\\r"
  | 0x09 => "\\t"
  | 0x0B => "\\v"
  | n =>
    if n < 0x20 ∨ n = 0x7F then "\\x" ++ hex 2 n
    else if n < 0x10000 then "\\u" ++ hex 4 n
    else "\\U" ++ hex 8 n

/-- How a character is written between quotes, where `shown` are those that need no escape. -/
def quoteChar (shown : Char → Bool) (c : Char) : String :=
  if c = '"' then "\\\""
  else if c = '\\' then "\\\\"
  else if shown c then c.toString
  else escapeChar c

/-- How an item is written between quotes: a byte that belongs to no character is written as its
number. -/
def quoteItem (shown : Char → Bool) : Item → String
  | .char c => quoteChar shown c
  | .stray b => "\\x" ++ hex 2 b.toNat

/-- Bytes between double quotes. -/
def quoteBytes (shown : Char → Bool) (bs : List UInt8) : String :=
  "\"" ++ String.join ((items bs).map (quoteItem shown)) ++ "\""

/-- A text between double quotes. -/
def quote (s : String) : String := quoteBytes isPrintable (encode s)

end FunLang.Text
