import FunLang.Parser.Patterns
import FunLang.Proofs.Text.Utf8

set_option autoImplicit false

/-!
# ASCII characters

A character below 128 is one byte, and all bytes of other characters are from 128 on. So there is such a
byte in a text only where its character is (`mem_of_mem_encode`). The decimal digits of a number are
characters of this kind, and their value as a literal is the number (`digitsValue_encode_repr`).
-/

namespace FunLang.Text

theorem encode_append (s t : String) : encode (s ++ t) = encode s ++ encode t := by
  simp [encode]

theorem utf8EncodeChar_eq_singleton {c : Char} (h : c.toNat < 128) :
    String.utf8EncodeChar c = [UInt8.ofNat c.toNat] := by
  have h' : c.val.toNat ≤ 127 := Nat.le_of_lt_succ h
  simp only [String.utf8EncodeChar, h', if_true]
  rfl

theorem flatMap_utf8EncodeChar {cs : List Char} (h : ∀ c ∈ cs, c.toNat < 128) :
    cs.flatMap String.utf8EncodeChar = cs.map fun c => UInt8.ofNat c.toNat := by
  induction cs with
  | nil => rfl
  | cons c cs ih =>
      rw [List.flatMap_cons, utf8EncodeChar_eq_singleton (h c List.mem_cons_self),
        ih fun c' hc' => h c' (List.mem_cons_of_mem _ hc')]
      rfl

theorem toNat_ofNat_of_lt {c : Char} (h : c.toNat < 128) :
    (UInt8.ofNat c.toNat).toNat = c.toNat := by
  simp only [UInt8.toNat_ofNat']
  omega

theorem toNat_ofNat_toNat {b : UInt8} (h : b.toNat < 128) : (Char.ofNat b.toNat).toNat = b.toNat := by
  have hvalid : b.toNat.isValidChar := Or.inl (by omega)
  rw [Char.ofNat, dif_pos hvalid]
  rfl

/-- Bytes below 128 are written again for the text that is read from them. -/
theorem encode_decode {bs : List UInt8} (h : ∀ b ∈ bs, b.toNat < 128) : encode (decode bs) = bs := by
  have hencode : encode (String.ofList (bs.map fun b => Char.ofNat b.toNat)) = bs := by
    have hascii : ∀ c ∈ bs.map (fun b => Char.ofNat b.toNat), c.toNat < 128 := by
      intro c hc
      obtain ⟨b, hb, rfl⟩ := List.mem_map.mp hc
      rw [toNat_ofNat_toNat (h b hb)]
      exact h b hb
    have hbyte : ∀ b ∈ bs, UInt8.ofNat (Char.ofNat b.toNat).toNat = b := by
      intro b hb
      rw [toNat_ofNat_toNat (h b hb), UInt8.ofNat_toNat]
    rw [encode, String.toList_ofList, flatMap_utf8EncodeChar hascii, List.map_map]
    exact (List.map_congr_left hbyte).trans (List.map_id bs)
  calc encode (decode bs)
      = encode (decode (encode (String.ofList (bs.map fun b => Char.ofNat b.toNat)))) := by rw [hencode]
    _ = encode (String.ofList (bs.map fun b => Char.ofNat b.toNat)) := by
        rw [decode_encode]
    _ = bs := hencode

/-! ## Bytes of characters -/

theorem le_of_mem_utf8EncodeChar {c : Char} (h : 128 ≤ c.toNat) {b : UInt8}
    (hb : b ∈ String.utf8EncodeChar c) : 128 ≤ b.toNat := by
  have hbyte : ∀ m < 128, 128 ≤ (UInt8.ofNat (m + 128)).toNat := by
    intro m hm
    rw [toNat_byte (by omega)]
    omega
  have hone : ¬ c.val.toNat ≤ 127 := Nat.not_le_of_lt h
  simp only [String.utf8EncodeChar, hone, if_false] at hb
  split_ifs at hb
  · rcases hb with _ | ⟨_, _ | ⟨_, ⟨⟩⟩⟩
    · exact hbyte (c.val.toNat / 64 % 32 + 64) (by omega)
    · exact hbyte _ (by omega)
  · rcases hb with _ | ⟨_, _ | ⟨_, _ | ⟨_, ⟨⟩⟩⟩⟩
    · exact hbyte (c.val.toNat / 4096 % 16 + 96) (by omega)
    · exact hbyte _ (by omega)
    · exact hbyte _ (by omega)
  · rcases hb with _ | ⟨_, _ | ⟨_, _ | ⟨_, _ | ⟨_, ⟨⟩⟩⟩⟩⟩
    · exact hbyte (c.val.toNat / 262144 % 8 + 112) (by omega)
    · exact hbyte _ (by omega)
    · exact hbyte _ (by omega)
    · exact hbyte _ (by omega)

/-- A byte below 128 stands for its character. -/
theorem mem_of_mem_encode {s : String} {b : UInt8} (hlt : b.toNat < 128) (hb : b ∈ encode s) :
    Char.ofNat b.toNat ∈ s.toList := by
  obtain ⟨c, hc, hb⟩ := List.mem_flatMap.mp hb
  by_cases hascii : c.toNat < 128
  · rw [utf8EncodeChar_eq_singleton hascii, List.mem_singleton] at hb
    rw [hb, toNat_ofNat_of_lt hascii, Char.ofNat_toNat]
    exact hc
  · have hle := le_of_mem_utf8EncodeChar (Nat.le_of_not_lt hascii) hb
    omega

/-! ## Decimal digits -/

theorem toNat_lt_of_isDigit {c : Char} (h : c.isDigit = true) : c.toNat < 128 := by
  simp only [Char.isDigit, Bool.and_eq_true, decide_eq_true_eq, UInt32.le_iff_toNat_le] at h
  have : c.toNat ≤ 57 := h.2
  omega

theorem encode_repr (n : Nat) :
    encode n.repr = (Nat.toDigits 10 n).map fun c => UInt8.ofNat c.toNat := by
  rw [encode, Nat.toList_repr]
  exact flatMap_utf8EncodeChar fun c hc =>
    toNat_lt_of_isDigit (Nat.isDigit_of_mem_toDigits (by omega) (by omega) hc)

theorem digitsValue_encode_repr (n : Nat) : Parser.digitsValue (encode n.repr) = n := by
  have hfold : ∀ (cs : List Char), (∀ c ∈ cs, c.isDigit = true) → ∀ m,
      (cs.map fun c => UInt8.ofNat c.toNat).foldl (fun n b => 10 * n + (b.toNat - 48)) m =
        Nat.ofDigitChars 10 cs m := by
    intro cs
    induction cs with
    | nil => intro _ m; rfl
    | cons c cs ih =>
        intro h m
        have hc := toNat_lt_of_isDigit (h c List.mem_cons_self)
        rw [List.map_cons, List.foldl_cons, toNat_ofNat_of_lt hc,
          ih (fun c' hc' => h c' (List.mem_cons_of_mem _ hc')), Nat.ofDigitChars_cons]
        rfl
  rw [encode_repr, Parser.digitsValue,
    hfold _ fun c hc => Nat.isDigit_of_mem_toDigits (by omega) (by omega) hc,
    Nat.ofDigitChars_ten_toDigits]

end FunLang.Text
