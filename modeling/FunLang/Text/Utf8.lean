set_option autoImplicit false

/-!
# Text as bytes

Source text is read byte by byte, and columns count bytes. `encode` gives the UTF-8 bytes of a
text, `decode` reads bytes back. Decoding is total: a byte that starts no well-formed sequence is
an item of its own (`Item.stray`), for which the text has the replacement character, and reading goes
on with the next byte.
-/

namespace FunLang.Text

/-- The UTF-8 bytes of a text. -/
def encode (s : String) : List UInt8 := s.toList.flatMap String.utf8EncodeChar

/-- Whether `b` lies between `lo` and `hi`, both included. -/
def byteIn (lo hi b : UInt8) : Bool := lo ≤ b && b ≤ hi

/-- The six bits that a continuation byte carries. -/
def low6 (b : UInt8) : Nat := b.toNat % 64

/-- The bytes that may follow the first byte `b` of a sequence of three. -/
def secondOfThree (b : UInt8) : UInt8 → Bool :=
  if b = 0xE0 then byteIn 0xA0 0xBF
  else if b = 0xED then byteIn 0x80 0x9F
  else byteIn 0x80 0xBF

/-- The bytes that may follow the first byte `b` of a sequence of four. -/
def secondOfFour (b : UInt8) : UInt8 → Bool :=
  if b = 0xF0 then byteIn 0x90 0xBF
  else if b = 0xF4 then byteIn 0x80 0x8F
  else byteIn 0x80 0xBF

/-- The character that starts at the byte `b` with `bs` after it, and how many bytes of `bs`
belong to it. -/
def leading (b : UInt8) (bs : List UInt8) : Option (Char × Nat) :=
  if b < 0x80 then some (Char.ofNat b.toNat, 0)
  else if byteIn 0xC2 0xDF b then
    match bs with
    | c :: _ =>
      if byteIn 0x80 0xBF c then some (Char.ofNat (b.toNat % 32 * 64 + low6 c), 1) else none
    | [] => none
  else if byteIn 0xE0 0xEF b then
    match bs with
    | c :: d :: _ =>
      if secondOfThree b c && byteIn 0x80 0xBF d then
        some (Char.ofNat ((b.toNat % 16 * 64 + low6 c) * 64 + low6 d), 2)
      else none
    | _ => none
  else if byteIn 0xF0 0xF4 b then
    match bs with
    | c :: d :: e :: _ =>
      if secondOfFour b c && byteIn 0x80 0xBF d && byteIn 0x80 0xBF e then
        some (Char.ofNat (((b.toNat % 8 * 64 + low6 c) * 64 + low6 d) * 64 + low6 e), 3)
      else none
    | _ => none
  else none

/-- What bytes are read as: a character, or a byte that belongs to none. -/
inductive Item where
  | char (c : Char)
  | stray (b : UInt8)
deriving DecidableEq, Repr, Inhabited

/-- The items of a byte sequence whose first `skip` bytes have been read already. -/
def itemsFrom : (skip : Nat) → List UInt8 → List Item
  | _, [] => []
  | skip + 1, _ :: bs => itemsFrom skip bs
  | 0, b :: bs =>
    match leading b bs with
    | some (c, n) => .char c :: itemsFrom n bs
    | none => .stray b :: itemsFrom 0 bs

/-- The items of a byte sequence. -/
def items (bs : List UInt8) : List Item := itemsFrom 0 bs

/-- The character that stands for an item in a text. -/
def Item.toChar : Item → Char
  | char c => c
  | stray _ => '�'

/-- The text of a byte sequence. -/
def decode (bs : List UInt8) : String := String.ofList ((items bs).map Item.toChar)

/-- The number of bytes of a text. -/
def byteLength (s : String) : Nat := s.utf8ByteSize

end FunLang.Text
