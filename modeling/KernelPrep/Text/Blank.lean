/-
  KernelPrep.Text.Blank — white space and the words it separates.

  The class is the Unicode property White_Space, which is wider than the ASCII blanks:
  it holds the no-break space, the typographic spaces and the line and paragraph
  separators.

  Main definitions:
    * `Text.isBlank` — the class;
    * `Text.words`   — the maximal runs of other characters, left to right.
-/

namespace KernelPrep.Text

/-! ## §1. The class -/

/-- Whether a character has the property White_Space. -/
def isBlank (c : Char) : Bool :=
  let n := c.toNat
  (9 ≤ n && n ≤ 13) || n == 0x20 || n == 0x85 || n == 0xA0 || n == 0x1680
    || (0x2000 ≤ n && n ≤ 0x200A) || n == 0x2028 || n == 0x2029 || n == 0x202F
    || n == 0x205F || n == 0x3000

/-- The class holds every blank that core knows. -/
theorem isBlank_of_isWhitespace {c : Char} (h : c.isWhitespace = true) : isBlank c = true := by
  simp only [Char.isWhitespace, Bool.or_eq_true, decide_eq_true_eq] at h
  rcases h with ((rfl | rfl) | rfl) | rfl <;> decide

/-! ## §2. Words -/

/-- The words of a list of characters, where `word` (reversed) is the one being read. -/
def wordsFrom (word : List Char) : List Char → List (List Char)
  | [] => if word.isEmpty then [] else [word.reverse]
  | c :: cs =>
    if isBlank c then
      if word.isEmpty then wordsFrom [] cs else word.reverse :: wordsFrom [] cs
    else wordsFrom (c :: word) cs

/-- The maximal runs of characters that are not blank; a blank text has none. -/
def words (text : String) : List String :=
  (wordsFrom [] text.toList).map String.ofList

end KernelPrep.Text
