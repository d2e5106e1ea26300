import FunLang.Proofs.Text.Ascii
import FunLang.Text.Quoted

set_option autoImplicit false

/-!
# Quoted texts

Between quotes, a backslash stands before every quote and every backslash, and whatever is not printable is
written in a longer form: characters that are not shown, and bytes that belong to no character. So bytes are
the same between quotes exactly if they have none of these (`encode_escaped_eq_iff`). Where something is
escaped there is a backslash, and this is escaped in turn if the result is quoted again
(`escaped_encode_escaped_iff`).
-/

namespace FunLang.Text

/-- What stands between the quotes when bytes are quoted. -/
def escaped (shown : Char → Bool) (bs : List UInt8) : String :=
  String.join ((items bs).map (quoteItem shown))

/-- The character is the same between quotes. -/
def IsPlainChar (shown : Char → Bool) (c : Char) : Prop := c ≠ '"' ∧ c ≠ '\\' ∧ shown c = true

/-- The item is a character, and the same between quotes. -/
def Item.IsPlain (shown : Char → Bool) : Item → Prop
  | char c => IsPlainChar shown c
  | stray _ => False

/-- The bytes are those of a text, and nothing in it has to be escaped. -/
def IsPlain (shown : Char → Bool) (bs : List UInt8) : Prop := ∀ i ∈ items bs, i.IsPlain shown

instance (shown : Char → Bool) (c : Char) : Decidable (IsPlainChar shown c) :=
  inferInstanceAs (Decidable (_ ∧ _ ∧ _))

instance (shown : Char → Bool) : (i : Item) → Decidable (i.IsPlain shown)
  | .char c => inferInstanceAs (Decidable (IsPlainChar shown c))
  | .stray _ => inferInstanceAs (Decidable False)

instance (shown : Char → Bool) (bs : List UInt8) : Decidable (IsPlain shown bs) :=
  inferInstanceAs (Decidable (∀ i ∈ items bs, i.IsPlain shown))

variable {shown : Char → Bool}

theorem quoteBytes_eq (shown : Char → Bool) (bs : List UInt8) :
    quoteBytes shown bs = "\"" ++ escaped shown bs ++ "\"" := rfl

theorem toList_escaped (shown : Char → Bool) (bs : List UInt8) :
    (escaped shown bs).toList = (items bs).flatMap fun i => (quoteItem shown i).toList := by
  unfold escaped
  induction items bs with
  | nil => rfl
  | cons i is ih => rw [List.map_cons, String.join_cons, String.toList_append, ih, List.flatMap_cons]

/-! ## Items -/

theorem exists_escapeChar (c : Char) : ∃ d cs, (escapeChar c).toList = '\\' :: d :: cs := by
  unfold escapeChar
  split
  · exact ⟨_, _, rfl⟩
  · exact ⟨_, _, rfl⟩
  · exact ⟨_, _, rfl⟩
  · exact ⟨_, _, rfl⟩
  · exact ⟨_, _, rfl⟩
  · exact ⟨_, _, rfl⟩
  · exact ⟨_, _, rfl⟩
  · split_ifs
    · exact ⟨_, _, String.toList_append⟩
    · exact ⟨_, _, String.toList_append⟩
    · exact ⟨_, _, String.toList_append⟩

theorem quoteChar_cases (shown : Char → Bool) (c : Char) :
    IsPlainChar shown c ∧ (quoteChar shown c).toList = [c] ∨
      ¬ IsPlainChar shown c ∧ ∃ d cs, (quoteChar shown c).toList = '\\' :: d :: cs := by
  unfold quoteChar IsPlainChar
  split_ifs with hquote hbackslash hshown
  · exact Or.inr ⟨by simp [hquote], _, _, rfl⟩
  · exact Or.inr ⟨by simp [hbackslash], _, _, rfl⟩
  · exact Or.inl ⟨⟨hquote, hbackslash, hshown⟩, by simp⟩
  · exact Or.inr ⟨by simp [hshown], exists_escapeChar c⟩

/-- An item is written as the character that it is, or in a longer form that starts with a backslash. -/
theorem quoteItem_cases (shown : Char → Bool) (i : Item) :
    i.IsPlain shown ∧ (quoteItem shown i).toList.flatMap String.utf8EncodeChar = i.bytes ∨
      ¬ i.IsPlain shown ∧ ∃ d cs, (quoteItem shown i).toList = '\\' :: d :: cs := by
  cases i with
  | stray b => exact Or.inr ⟨id, _, _, String.toList_append⟩
  | char c =>
      rcases quoteChar_cases shown c with ⟨hplain, h⟩ | ⟨hplain, h⟩
      · exact Or.inl ⟨hplain, by simp [quoteItem, h, Item.bytes]⟩
      · exact Or.inr ⟨hplain, h⟩

/-! ## Plain texts -/

theorem length_le_length_flatMap (shown : Char → Bool) (cs : List Char) :
    cs.length ≤ (cs.flatMap fun c => (quoteChar shown c).toList).length := by
  induction cs with
  | nil => simp
  | cons c cs ih =>
      rw [List.flatMap_cons, List.length_append, List.length_cons]
      rcases quoteChar_cases shown c with ⟨-, h⟩ | ⟨-, d, ds, h⟩ <;> rw [h] <;>
        simp only [List.length_cons] <;> omega

/-- Escaping makes a text longer if it changes anything. -/
theorem flatMap_quoteChar_eq_self_iff (cs : List Char) :
    (cs.flatMap fun c => (quoteChar shown c).toList) = cs ↔ ∀ c ∈ cs, IsPlainChar shown c := by
  induction cs with
  | nil => simp
  | cons c cs ih =>
      rw [List.flatMap_cons, List.forall_mem_cons, ← ih]
      rcases quoteChar_cases shown c with ⟨hplain, h⟩ | ⟨hplain, d, ds, h⟩
      · rw [h]
        simp [hplain]
      · have hlength := length_le_length_flatMap shown cs
        refine iff_of_false (fun heq => ?_) fun hboth => hplain hboth.1
        have hlonger := congrArg List.length heq
        simp only [h, List.length_append, List.length_cons] at hlonger
        omega

theorem escaped_encode_eq_iff (s : String) :
    escaped shown (encode s) = s ↔ ∀ c ∈ s.toList, IsPlainChar shown c := by
  rw [← String.toList_inj, toList_escaped, items_encode, List.flatMap_map]
  exact flatMap_quoteChar_eq_self_iff s.toList

/-! ## Plain bytes -/

theorem encode_escaped_of_isPlain {bs : List UInt8} (h : IsPlain shown bs) :
    encode (escaped shown bs) = bs := by
  have hitem : ∀ i ∈ items bs, (quoteItem shown i).toList.flatMap String.utf8EncodeChar = i.bytes := by
    intro i hi
    rcases quoteItem_cases shown i with ⟨-, hbytes⟩ | ⟨hplain, -⟩
    · exact hbytes
    · exact absurd (h i hi) hplain
  calc encode (escaped shown bs)
      = (items bs).flatMap fun i => (quoteItem shown i).toList.flatMap String.utf8EncodeChar := by
        rw [encode, toList_escaped, List.flatMap_assoc]
    _ = (items bs).flatMap Item.bytes := List.flatMap_congr hitem
    _ = bs := flatMap_bytes_items bs

/-- What is written without a backslash is plain. -/
theorem isPlain_of_escaped {bs : List UInt8} (h : ∀ c ∈ (escaped shown bs).toList, IsPlainChar shown c) :
    IsPlain shown bs := by
  intro i hi
  rcases quoteItem_cases shown i with ⟨hplain, -⟩ | ⟨-, d, ds, hd⟩
  · exact hplain
  · have hbackslash : '\\' ∈ (escaped shown bs).toList := by
      rw [toList_escaped]
      exact List.mem_flatMap.mpr ⟨i, hi, by simp [hd]⟩
    exact absurd rfl (h _ hbackslash).2.1

/-- What has been escaped is escaped once more unless it is plain. -/
theorem escaped_encode_escaped_iff (bs : List UInt8) :
    escaped shown (encode (escaped shown bs)) = escaped shown bs ↔ IsPlain shown bs := by
  constructor
  · intro h
    exact isPlain_of_escaped ((escaped_encode_eq_iff _).mp h)
  · intro h
    rw [encode_escaped_of_isPlain h]

theorem encode_escaped_eq_iff (bs : List UInt8) :
    encode (escaped shown bs) = bs ↔ IsPlain shown bs := by
  constructor
  · intro h
    exact (escaped_encode_escaped_iff bs).mp (congrArg (escaped shown) h)
  · exact encode_escaped_of_isPlain

/-! ## No quotes and line ends -/

/-- The characters that end a string before its closing quote. -/
def isStop (c : Char) : Bool := c == '"' || c == '\n' || c == '\x00'

theorem isStop_digitChar : ∀ n < 16, isStop n.digitChar = false := by
  decide

theorem isStop_of_mem_toDigits {n : Nat} {c : Char} (hc : c ∈ Nat.toDigits 16 n) : isStop c = false := by
  induction n using Nat.strong_induction_on with
  | _ n ih =>
      rw [Nat.toDigits_eq_if (by omega)] at hc
      split at hc
      · rename_i hn
        rw [List.mem_singleton.mp hc]
        exact isStop_digitChar n hn
      · rcases List.mem_append.mp hc with hc | hc
        · exact ih (n / 16) (by omega) hc
        · rw [List.mem_singleton.mp hc]
          exact isStop_digitChar (n % 16) (by omega)

theorem isStop_of_mem_hex {width n : Nat} {c : Char} (hc : c ∈ (hex width n).toList) :
    isStop c = false := by
  rw [hex, String.toList_ofList] at hc
  rcases List.mem_append.mp hc with hc | hc
  · rw [List.eq_of_mem_replicate hc]
    rfl
  · exact isStop_of_mem_toDigits hc

theorem isStop_of_mem_short {s : String} {d : Char} (hs : (s.toList.all fun d => !isStop d) = true)
    (hd : d ∈ s.toList) : isStop d = false := by
  simpa using List.all_eq_true.mp hs d hd

theorem isStop_of_mem_escapeChar {c d : Char} (hd : d ∈ (escapeChar c).toList) : isStop d = false := by
  unfold escapeChar at hd
  split at hd
  · exact isStop_of_mem_short rfl hd
  · exact isStop_of_mem_short rfl hd
  · exact isStop_of_mem_short rfl hd
  · exact isStop_of_mem_short rfl hd
  · exact isStop_of_mem_short rfl hd
  · exact isStop_of_mem_short rfl hd
  · exact isStop_of_mem_short rfl hd
  · split_ifs at hd <;> rw [String.toList_append, List.mem_append] at hd <;> rcases hd with hd | hd
    · exact isStop_of_mem_short rfl hd
    · exact isStop_of_mem_hex hd
    · exact isStop_of_mem_short rfl hd
    · exact isStop_of_mem_hex hd
    · exact isStop_of_mem_short rfl hd
    · exact isStop_of_mem_hex hd

/-- Escaping adds no character that ends a string. -/
theorem isStop_of_mem_quoteItem {i : Item} {d : Char} (hd : d ∈ (quoteItem shown i).toList) :
    isStop d = false ∨ i = .char d := by
  cases i with
  | stray b =>
      rw [quoteItem, String.toList_append, List.mem_append] at hd
      rcases hd with hd | hd
      · exact Or.inl (isStop_of_mem_short rfl hd)
      · exact Or.inl (isStop_of_mem_hex hd)
  | char c =>
      rw [quoteItem, quoteChar] at hd
      split_ifs at hd with hquote hbackslash hshown
      · rcases List.mem_pair.mp hd with rfl | rfl
        · exact Or.inl rfl
        · exact Or.inr (congrArg Item.char hquote)
      · exact Or.inl (isStop_of_mem_short rfl hd)
      · obtain rfl : d = c := by simpa using hd
        exact Or.inr rfl
      · exact Or.inl (isStop_of_mem_escapeChar hd)

/-- A byte that ends a string is in what is written only if it has been there before. -/
theorem mem_of_mem_encode_escaped {bs : List UInt8} {b : UInt8} (hlt : b.toNat < 128)
    (hstop : isStop (Char.ofNat b.toNat) = true) (hb : b ∈ encode (escaped shown bs)) : b ∈ bs := by
  have hchar := mem_of_mem_encode hlt hb
  rw [toList_escaped] at hchar
  obtain ⟨i, hi, hchar⟩ := List.mem_flatMap.mp hchar
  rcases isStop_of_mem_quoteItem hchar with hnot | rfl
  · rw [hnot] at hstop
    cases hstop
  · rw [← flatMap_bytes_items bs]
    exact List.mem_flatMap.mpr ⟨_, hi, by simp [Item.bytes, utf8EncodeChar_one hlt]⟩

end FunLang.Text
