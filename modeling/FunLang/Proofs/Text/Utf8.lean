import FunLang.Text.Utf8
import Mathlib.Tactic

set_option autoImplicit false

/-!
# Texts and their bytes

The first byte of a character tells how many follow it, and the tables of second bytes let all characters
through (`leading_utf8EncodeChar`) and nothing else: what is read as a character are the bytes that it is
written with (`utf8EncodeChar_of_leading`). So every text is read back from its bytes (`decode_encode`), and
no byte is lost when bytes that need not be those of a text are read (`flatMap_bytes_items`).
-/

namespace FunLang.Text

theorem byteIn_iff {lo hi b : UInt8} :
    byteIn lo hi b = true ↔ lo.toNat ≤ b.toNat ∧ b.toNat ≤ hi.toNat := by
  simp [byteIn, UInt8.le_iff_toNat_le]

theorem not_byteIn {lo hi b : UInt8} {n : Nat} (hn : n ≤ b.toNat) (hhi : hi.toNat < n) :
    ¬ byteIn lo hi b = true := by
  rw [byteIn_iff]
  omega

theorem not_lt_of_le {b : UInt8} (h : 0x80 ≤ b.toNat) : ¬ b < 0x80 :=
  UInt8.not_lt.mpr (UInt8.le_iff_toNat_le.mpr h)

theorem toNat_byte {n : Nat} (h : n < 256) : (UInt8.ofNat n).toNat = n := by
  rw [UInt8.toNat_ofNat']
  omega

/-! ## The bytes of a character -/

theorem leading_one {b : UInt8} (hb : b.toNat < 0x80) (bs : List UInt8) :
    leading b bs = some (Char.ofNat b.toNat, 0) := by
  have hlt : b < 0x80 := UInt8.lt_iff_toNat_lt.mpr hb
  rw [leading.eq_def, if_pos hlt]

theorem leading_two {b c : UInt8} (hb : 0xC2 ≤ b.toNat ∧ b.toNat ≤ 0xDF)
    (hc : 0x80 ≤ c.toNat ∧ c.toNat ≤ 0xBF) (bs : List UInt8) :
    leading b (c :: bs) = some (Char.ofNat (b.toNat % 32 * 64 + c.toNat % 64), 1) := by
  have hlt : ¬ b < 0x80 := not_lt_of_le (by omega)
  have hlead : byteIn 0xC2 0xDF b = true := byteIn_iff.mpr hb
  have hnext : byteIn 0x80 0xBF c = true := byteIn_iff.mpr hc
  rw [leading.eq_def, if_neg hlt, if_pos hlead]
  exact if_pos hnext

theorem leading_three {b c d : UInt8} (hb : 0xE0 ≤ b.toNat ∧ b.toNat ≤ 0xEF)
    (hc : secondOfThree b c = true) (hd : 0x80 ≤ d.toNat ∧ d.toNat ≤ 0xBF) (bs : List UInt8) :
    leading b (c :: d :: bs) =
      some (Char.ofNat ((b.toNat % 16 * 64 + c.toNat % 64) * 64 + d.toNat % 64), 2) := by
  have hlt : ¬ b < 0x80 := not_lt_of_le (by omega)
  have htwo : ¬ byteIn 0xC2 0xDF b = true := not_byteIn hb.1 (by decide)
  have hlead : byteIn 0xE0 0xEF b = true := byteIn_iff.mpr hb
  have hlast : byteIn 0x80 0xBF d = true := byteIn_iff.mpr hd
  rw [leading.eq_def, if_neg hlt, if_neg htwo, if_pos hlead]
  exact if_pos (by rw [hc, hlast, Bool.and_self])

theorem leading_four {b c d e : UInt8} (hb : 0xF0 ≤ b.toNat ∧ b.toNat ≤ 0xF4)
    (hc : secondOfFour b c = true) (hd : 0x80 ≤ d.toNat ∧ d.toNat ≤ 0xBF)
    (he : 0x80 ≤ e.toNat ∧ e.toNat ≤ 0xBF) (bs : List UInt8) :
    leading b (c :: d :: e :: bs) =
      some (Char.ofNat (((b.toNat % 8 * 64 + c.toNat % 64) * 64 + d.toNat % 64) * 64 + e.toNat % 64),
        3) := by
  have hlt : ¬ b < 0x80 := not_lt_of_le (by omega)
  have htwo : ¬ byteIn 0xC2 0xDF b = true := not_byteIn hb.1 (by decide)
  have hthree : ¬ byteIn 0xE0 0xEF b = true := not_byteIn hb.1 (by decide)
  have hlead : byteIn 0xF0 0xF4 b = true := byteIn_iff.mpr hb
  have hthird : byteIn 0x80 0xBF d = true := byteIn_iff.mpr hd
  have hlast : byteIn 0x80 0xBF e = true := byteIn_iff.mpr he
  rw [leading.eq_def, if_neg hlt, if_neg htwo, if_neg hthree, if_pos hlead]
  exact if_pos (by rw [hc, hthird, hlast, Bool.and_self, Bool.and_self])

theorem secondOfThree_iff {b c : UInt8} : secondOfThree b c = true ↔
    (if b.toNat = 0xE0 then 0xA0 else 0x80) ≤ c.toNat ∧
      c.toNat ≤ if b.toNat = 0xED then 0x9F else 0xBF := by
  unfold secondOfThree
  simp only [← UInt8.toNat_inj, UInt8.reduceToNat]
  split_ifs <;> first | exact byteIn_iff | omega

theorem secondOfFour_iff {b c : UInt8} : secondOfFour b c = true ↔
    (if b.toNat = 0xF0 then 0x90 else 0x80) ≤ c.toNat ∧
      c.toNat ≤ if b.toNat = 0xF4 then 0x8F else 0xBF := by
  unfold secondOfFour
  simp only [← UInt8.toNat_inj, UInt8.reduceToNat]
  split_ifs <;> first | exact byteIn_iff | omega

/-- The first byte of a character tells how many follow, and from all of them it is read back. -/
theorem leading_utf8EncodeChar (c : Char) (rest : List UInt8) :
    ∃ b bs, String.utf8EncodeChar c = b :: bs ∧ leading b (bs ++ rest) = some (c, bs.length) := by
  have hvalid : c.val.toNat < 0xD800 ∨ 0xDFFF < c.val.toNat ∧ c.val.toNat < 0x110000 := c.valid
  have hc : Char.ofNat c.val.toNat = c := Char.ofNat_toNat c
  unfold String.utf8EncodeChar
  generalize c.val.toNat = v at hc hvalid
  dsimp only
  -- there are one to four bytes; of three and of four the first one bounds the second, and this is where
  -- `hvalid` is needed
  split_ifs with hone htwo hthree
  · refine ⟨_, _, rfl, ?_⟩
    have hb := toNat_byte (show v < 256 by omega)
    rw [leading_one (by omega), hb, hc]
    rfl
  · refine ⟨_, _, rfl, ?_⟩
    have hb := toNat_byte (show v / 64 % 32 + 192 < 256 by omega)
    have hlast := toNat_byte (show v % 64 + 128 < 256 by omega)
    have hv : (v / 64 % 32 + 192) % 32 * 64 + (v % 64 + 128) % 64 = v := by omega
    rw [List.singleton_append, leading_two (by omega) (by omega), hb, hlast, hv, hc]
    rfl
  · refine ⟨_, _, rfl, ?_⟩
    have hb := toNat_byte (show v / 4096 % 16 + 224 < 256 by omega)
    have hsecond := toNat_byte (show v / 64 % 64 + 128 < 256 by omega)
    have hlast := toNat_byte (show v % 64 + 128 < 256 by omega)
    have hv : ((v / 4096 % 16 + 224) % 16 * 64 + (v / 64 % 64 + 128) % 64) * 64
        + (v % 64 + 128) % 64 = v := by omega
    have htable : secondOfThree (UInt8.ofNat (v / 4096 % 16 + 224)) (UInt8.ofNat (v / 64 % 64 + 128))
        = true := by
      rw [secondOfThree_iff, hb, hsecond]
      split_ifs <;> omega
    rw [List.cons_append, List.singleton_append, leading_three (by omega) htable (by omega), hb,
      hsecond, hlast, hv, hc]
    rfl
  · refine ⟨_, _, rfl, ?_⟩
    have hb := toNat_byte (show v / 262144 % 8 + 240 < 256 by omega)
    have hsecond := toNat_byte (show v / 4096 % 64 + 128 < 256 by omega)
    have hthird := toNat_byte (show v / 64 % 64 + 128 < 256 by omega)
    have hlast := toNat_byte (show v % 64 + 128 < 256 by omega)
    have hv : (((v / 262144 % 8 + 240) % 8 * 64 + (v / 4096 % 64 + 128) % 64) * 64
        + (v / 64 % 64 + 128) % 64) * 64 + (v % 64 + 128) % 64 = v := by omega
    have htable : secondOfFour (UInt8.ofNat (v / 262144 % 8 + 240))
        (UInt8.ofNat (v / 4096 % 64 + 128)) = true := by
      rw [secondOfFour_iff, hb, hsecond]
      split_ifs <;> omega
    rw [List.cons_append, List.cons_append, List.singleton_append,
      leading_four (by omega) htable (by omega) (by omega), hb, hsecond, hthird, hlast, hv, hc]
    rfl

/-! ## The character of some bytes -/

theorem val_ofNat {n : Nat} (h : n.isValidChar) : (Char.ofNat n).val.toNat = n := by
  rw [Char.ofNat, dif_pos h]
  rfl

theorem ofNat_eq {n : Nat} {b : UInt8} (h : n = b.toNat) : UInt8.ofNat n = b := by
  rw [h, UInt8.ofNat_toNat]

theorem utf8EncodeChar_one {b : UInt8} (hb : b.toNat < 0x80) :
    String.utf8EncodeChar (Char.ofNat b.toNat) = [b] := by
  have hv := val_ofNat (n := b.toNat) (Or.inl (by omega))
  unfold String.utf8EncodeChar
  generalize Char.val _ = v at hv
  dsimp only
  rw [hv, if_pos (by omega), ofNat_eq rfl]

theorem utf8EncodeChar_two {b c : UInt8} (hb : 0xC2 ≤ b.toNat ∧ b.toNat ≤ 0xDF)
    (hc : 0x80 ≤ c.toNat ∧ c.toNat ≤ 0xBF) :
    String.utf8EncodeChar (Char.ofNat (b.toNat % 32 * 64 + c.toNat % 64)) = [b, c] := by
  have hv := val_ofNat (n := b.toNat % 32 * 64 + c.toNat % 64) (Or.inl (by omega))
  unfold String.utf8EncodeChar
  generalize Char.val _ = v at hv
  dsimp only
  rw [hv, if_neg (by omega), if_pos (by omega), ofNat_eq (b := b) (by omega), ofNat_eq (b := c) (by omega)]

theorem bounds_of_secondOfThree {b c : UInt8} (h : secondOfThree b c = true) :
    (0x80 ≤ c.toNat ∧ c.toNat ≤ 0xBF) ∧ (b.toNat = 0xE0 → 0xA0 ≤ c.toNat) ∧
      (b.toNat = 0xED → c.toNat ≤ 0x9F) := by
  rw [secondOfThree_iff] at h
  split_ifs at h <;> omega

theorem bounds_of_secondOfFour {b c : UInt8} (h : secondOfFour b c = true) :
    (0x80 ≤ c.toNat ∧ c.toNat ≤ 0xBF) ∧ (b.toNat = 0xF0 → 0x90 ≤ c.toNat) ∧
      (b.toNat = 0xF4 → c.toNat ≤ 0x8F) := by
  rw [secondOfFour_iff] at h
  split_ifs at h <;> omega

theorem utf8EncodeChar_three {b c d : UInt8} (hb : 0xE0 ≤ b.toNat ∧ b.toNat ≤ 0xEF)
    (hc : secondOfThree b c = true) (hd : 0x80 ≤ d.toNat ∧ d.toNat ≤ 0xBF) :
    String.utf8EncodeChar (Char.ofNat ((b.toNat % 16 * 64 + c.toNat % 64) * 64 + d.toNat % 64)) =
      [b, c, d] := by
  have hsecond := bounds_of_secondOfThree hc
  have hvalid : ((b.toNat % 16 * 64 + c.toNat % 64) * 64 + d.toNat % 64).isValidChar := by
    unfold Nat.isValidChar
    omega
  have hv := val_ofNat hvalid
  unfold String.utf8EncodeChar
  generalize Char.val _ = v at hv
  dsimp only
  rw [hv, if_neg (by omega), if_neg (by omega), if_pos (by omega), ofNat_eq (b := b) (by omega),
    ofNat_eq (b := c) (by omega), ofNat_eq (b := d) (by omega)]

theorem utf8EncodeChar_four {b c d e : UInt8} (hb : 0xF0 ≤ b.toNat ∧ b.toNat ≤ 0xF4)
    (hc : secondOfFour b c = true) (hd : 0x80 ≤ d.toNat ∧ d.toNat ≤ 0xBF)
    (he : 0x80 ≤ e.toNat ∧ e.toNat ≤ 0xBF) :
    String.utf8EncodeChar (Char.ofNat (((b.toNat % 8 * 64 + c.toNat % 64) * 64 + d.toNat % 64) * 64
      + e.toNat % 64)) = [b, c, d, e] := by
  have hsecond := bounds_of_secondOfFour hc
  have hvalid : (((b.toNat % 8 * 64 + c.toNat % 64) * 64 + d.toNat % 64) * 64 +
      e.toNat % 64).isValidChar := by
    unfold Nat.isValidChar
    omega
  have hv := val_ofNat hvalid
  unfold String.utf8EncodeChar
  generalize Char.val _ = v at hv
  dsimp only
  rw [hv, if_neg (by omega), if_neg (by omega), if_neg (by omega), ofNat_eq (b := b) (by omega),
    ofNat_eq (b := c) (by omega), ofNat_eq (b := d) (by omega), ofNat_eq (b := e) (by omega)]

/-- The bytes from which a character is read are the ones it is written with. -/
theorem utf8EncodeChar_of_leading {b : UInt8} {bs : List UInt8} {c : Char} {n : Nat}
    (h : leading b bs = some (c, n)) :
    ∃ cs rest, bs = cs ++ rest ∧ n = cs.length ∧ String.utf8EncodeChar c = b :: cs := by
  revert h
  -- four of the paths through `leading` read a character, the other ones end in `none`
  fun_cases leading b bs with
  | case1 bs hb =>
      rintro ⟨⟩
      exact ⟨[], bs, rfl, rfl, utf8EncodeChar_one (UInt8.lt_iff_toNat_lt.mp hb)⟩
  | case2 _ hb d rest hd =>
      rintro ⟨⟩
      exact ⟨[d], rest, rfl, rfl, utf8EncodeChar_two (byteIn_iff.mp hb) (byteIn_iff.mp hd)⟩
  | case5 _ _ hb d e rest hde =>
      rintro ⟨⟩
      obtain ⟨hd, he⟩ := Bool.and_eq_true_iff.mp hde
      exact ⟨[d, e], rest, rfl, rfl, utf8EncodeChar_three (byteIn_iff.mp hb) hd (byteIn_iff.mp he)⟩
  | case8 _ _ _ hb d e f rest hdef =>
      rintro ⟨⟩
      obtain ⟨hde, hf⟩ := Bool.and_eq_true_iff.mp hdef
      obtain ⟨hd, he⟩ := Bool.and_eq_true_iff.mp hde
      exact ⟨[d, e, f], rest, rfl, rfl,
        utf8EncodeChar_four (byteIn_iff.mp hb) hd (byteIn_iff.mp he) (byteIn_iff.mp hf)⟩
  | _ => rintro ⟨⟩

/-! ## Texts -/

theorem itemsFrom_length_append (bs rest : List UInt8) :
    itemsFrom bs.length (bs ++ rest) = itemsFrom 0 rest := by
  induction bs with
  | nil => rfl
  | cons b bs ih => rw [List.length_cons, List.cons_append, itemsFrom, ih]

theorem itemsFrom_flatMap (cs : List Char) :
    itemsFrom 0 (cs.flatMap String.utf8EncodeChar) = cs.map Item.char := by
  induction cs with
  | nil => rfl
  | cons c cs ih =>
      obtain ⟨b, bs, hbytes, hleading⟩ := leading_utf8EncodeChar c (cs.flatMap String.utf8EncodeChar)
      rw [List.flatMap_cons, hbytes, List.cons_append, itemsFrom, hleading]
      simp only [itemsFrom_length_append, ih, List.map_cons]

/-- The items of the bytes of a text are its characters. -/
theorem items_encode (s : String) : items (encode s) = s.toList.map Item.char :=
  itemsFrom_flatMap s.toList

/-- Every text is read back from its bytes. -/
theorem decode_encode (s : String) : decode (encode s) = s := by
  have hchars : s.toList.map (Item.toChar ∘ Item.char) = s.toList := List.map_id s.toList
  rw [decode, items_encode, List.map_map, hchars, String.ofList_toList]

/-- The bytes of an item. -/
def Item.bytes : Item → List UInt8
  | char c => String.utf8EncodeChar c
  | stray b => [b]

theorem flatMap_bytes_itemsFrom (skip : Nat) (bs : List UInt8) :
    (itemsFrom skip bs).flatMap Item.bytes = bs.drop skip := by
  induction bs generalizing skip with
  | nil => cases skip <;> rfl
  | cons b bs ih =>
      cases skip with
      | succ skip => exact ih skip
      | zero =>
          rw [itemsFrom]
          cases h : leading b bs with
          | none => exact congrArg (b :: ·) (ih 0)
          | some r =>
              obtain ⟨c, n⟩ := r
              obtain ⟨cs, rest, rfl, rfl, hbytes⟩ := utf8EncodeChar_of_leading h
              have hrest := ih cs.length
              rw [List.drop_left] at hrest
              simp only [List.flatMap_cons, Item.bytes, hbytes, hrest, List.cons_append, List.drop_zero]

/-- No byte is lost in the items. -/
theorem flatMap_bytes_items (bs : List UInt8) : (items bs).flatMap Item.bytes = bs :=
  flatMap_bytes_itemsFrom 0 bs

end FunLang.Text
