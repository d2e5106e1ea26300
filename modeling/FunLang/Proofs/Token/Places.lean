import FunLang.Proofs.Token.Splits

set_option autoImplicit false

/-!
# The places of tokens

The place of a byte is the number of its line and its column there, both found by counting the line ends
and the bytes before it (`place`). Every token is placed at its first byte as long as no string before it
lacks its closing quote (`tokenize_places`).

A string that is not closed is counted as if there were a quote where it stops. If it stops at the end of
its line then this line end is not counted as one, and all that follows is placed on a line before its
own. At the end of the text the quote is counted although there is no byte, and the end is placed
one column too far (`tokenize_misplaced`).
-/

namespace FunLang.Lexer

/-- The place of the first byte behind a text: its line is one more than the number of line ends, and its
column one more than the number of bytes after the last of them. -/
def place (before : List UInt8) : Pos :=
  ⟨1 + before.count 0x0A, 1 + (before.reverse.takeWhile (· != 0x0A)).length⟩

theorem place_concat (before : List UInt8) (b : UInt8) :
    place (before ++ [b]) = if b = 0x0A then (place before).nextLine else (place before).right 1 := by
  by_cases hb : b = 0x0A
  · simp [place, Pos.nextLine, hb]
    omega
  · simp [place, Pos.right, hb]
    omega

theorem after_start (bs : List UInt8) : Pos.start.after bs = place bs := by
  induction bs using List.reverseRecOn with
  | nil => rfl
  | append_singleton bs b ih => rw [Pos.after_append, ih, place_concat, Pos.after, Pos.after]

theorem length_tokensOf (p : Pos) (qs : List Piece) : (tokensOf p qs).length = qs.length := by
  simpa using congrArg List.length (map_tokensOf p qs)

theorem getElem?_tokensOf (p : Pos) (before : List Piece) (q : Piece) (after : List Piece) :
    (tokensOf p (before ++ q :: after))[before.length]? =
      some (q.tokenAt (p.after (before.flatMap Piece.counted ++ q.gap))) := by
  induction before generalizing p with
  | nil => rfl
  | cons r before ih =>
      rw [List.cons_append, tokensOf, List.length_cons, List.getElem?_cons_succ, ih,
        List.flatMap_cons, List.append_assoc, Pos.after_append p]

/-- The text before a piece is what is counted unless a string in it is not closed. -/
theorem flatMap_counted {qs : List Piece} (h : ∀ q ∈ qs, q.isUnclosedString = false) :
    qs.flatMap Piece.counted = qs.flatMap Piece.text :=
  List.flatMap_congr fun q hq => Piece.counted_eq_text (h q hq)

/-- **Places are exact up to strings that are not closed.** However a text without a NUL byte is split,
there are as many tokens as pieces, and the place of each of them is found by counting the bytes before
it, where a string that is not closed counts as if there were a quote where it stops. If there is no such
string before a token, illegal or the end of the text included, these are just the bytes of the text. -/
theorem tokenize_places {source : List UInt8} (hnul : 0 ∉ source) :
    (∃ qs, Splits source qs) ∧ ∀ qs, Splits source qs →
      (tokenize source).length = qs.length ∧ ∀ before q after, qs = before ++ q :: after →
        (tokenize source)[before.length]? =
          some (q.tokenAt (place (before.flatMap Piece.counted ++ q.gap))) ∧
        ((∀ r ∈ before, r.isUnclosedString = false) → (tokenize source)[before.length]? =
          some (q.tokenAt (place (before.flatMap Piece.text ++ q.gap)))) := by
  refine ⟨exists_splits hnul, fun qs h => ?_⟩
  rw [h.tokenize_eq hnul]
  refine ⟨length_tokensOf _ _, ?_⟩
  rintro before q after rfl
  rw [getElem?_tokensOf, after_start]
  exact ⟨rfl, fun hclosed => by rw [flatMap_counted hclosed]⟩

/-- A string that stops at the end of its line, and a name on the next one. -/
theorem tokenize_places_unclosed :
    let broken : Piece :=
      ⟨[], Text.encode "\"a\n", .illegal, Text.encode "unterminated string"⟩
    let name : Piece := ⟨[], Text.encode "x", .ident, Text.encode "x"⟩
    let source := Text.encode "\"a\nx"
    0 ∉ source ∧ Splits source [broken, name, ⟨[], [], .eof, []⟩] ∧
      (tokenize source)[1]? = some (name.tokenAt (place (Text.encode "\"a\""))) := by
  intro broken name source
  have hnul : 0 ∉ source := by decide
  have hspan : broken.span = 0x22 :: ([0x61] ++ [0x0A]) := by decide
  have hcontent : ∀ b ∈ [0x61], isStringPart b = true := by simp [isStringPart]
  have hbroken : Covers broken.span name.span broken.kind broken.literal :=
    .unclosedString hspan hcontent (Or.inl rfl)
  have hname : Covers name.span [] (kindOf name.span) name.span :=
    .token (by decide) fun more hmore hne => absurd (List.prefix_nil.mp hmore) hne
  have hsplits : Splits source [broken, name, ⟨[], [], .eof, []⟩] :=
    .cons .nil hbroken (.cons .nil hname (.last .nil))
  exact ⟨hnul, hsplits, (((tokenize_places hnul).2 _ hsplits).2 [broken] name _ rfl).1⟩

/-- A name on the second line is placed on the first, and the end of a text of two bytes at its fourth
column. -/
theorem tokenize_misplaced :
    (tokenize (Text.encode "\"a\nx")).map Token.pos = [⟨1, 1⟩, ⟨1, 4⟩, ⟨1, 5⟩] ∧
      place (Text.encode "\"a\n") = ⟨2, 1⟩ ∧
    (tokenize (Text.encode "\"a")).map Token.pos = [⟨1, 1⟩, ⟨1, 4⟩] ∧
      place (Text.encode "\"a") = ⟨1, 3⟩ := by
  decide +kernel

end FunLang.Lexer
