/-
  KernelPrep.Lexeme.Cursor — a position in the bytes of a source text.

  A cursor knows the whole source, its offset and the bytes still ahead; the proof field
  ties the three together, so every movement is a `List.drop`.  Past the end the source
  reads as zero bytes.  A cursor may be moved beyond the end; the searching movements
  then come back to the end exactly.

  Main definitions:
    * `Cursor.advance`           — move by a number of bytes;
    * `Cursor.eatWhile`          — move over a run of bytes of one class;
    * `Cursor.toLineEnd`         — move to the next line feed;
    * `Cursor.toQuoteDelimiter`  — move to a byte that can end or escape a quoted run;
    * `Cursor.pastCommentEnd`    — move behind the next `*/`.

  Main statement: `Cursor.atEnd_iff` — the cursor is at the end exactly when its offset
  has reached the length of the source.
-/

namespace KernelPrep

/-! ## §1. Searching a list of bytes -/

namespace Lexeme

/-- The line feed. -/
def lf : UInt8 := 0x0A

/-- The carriage return. -/
def cr : UInt8 := 0x0D

/-- The backslash. -/
def backslash : UInt8 := 0x5C

/-- The number of bytes through the first `*/`, if there is one. -/
def commentEnd? : List UInt8 → Option Nat
  | [] => none
  | [_] => none
  | a :: b :: rest =>
    if a = 0x2A ∧ b = 0x2F then some 2 else (commentEnd? (b :: rest)).map (· + 1)

/-- Whether `byte` can end or escape a run quoted by `quote`. -/
def isQuoteDelimiter (quote byte : UInt8) : Bool :=
  byte == quote || byte == backslash || byte == lf || byte == cr

end Lexeme

/-! ## §2. Cursors -/

/-- A position in a source: `rest` holds the bytes from offset `pos` on. -/
structure Cursor where
  source : List UInt8
  pos : Nat
  rest : List UInt8
  rest_eq : rest = source.drop pos

namespace Cursor

/-- The cursor at the start of a source. -/
def start (source : List UInt8) : Cursor := ⟨source, 0, source, rfl⟩

/-- The byte at the cursor; zero at the end. -/
def current (c : Cursor) : UInt8 := c.rest.headD 0

/-- The byte after the one at the cursor. -/
def peek (c : Cursor) : UInt8 := (c.rest.drop 1).headD 0

/-- Whether no byte is left. -/
def atEnd (c : Cursor) : Bool := c.rest.isEmpty

/-- Move by `n` bytes, beyond the end if need be. -/
def advance (c : Cursor) (n : Nat) : Cursor where
  source := c.source
  pos := c.pos + n
  -- the offset moves even where no bytes are left
  rest := c.rest.drop n
  rest_eq := by rw [c.rest_eq, List.drop_drop]

/-- Move to the end of the source, from wherever the cursor is. -/
def toEnd (c : Cursor) : Cursor where
  source := c.source
  pos := c.source.length
  rest := []
  rest_eq := by simp

/-- Move over the bytes that satisfy `p`, up to the end at most. -/
def eatWhile (c : Cursor) (p : UInt8 → Bool) : Cursor :=
  c.advance (c.rest.takeWhile p).length

/-- Move to the next byte that satisfies `p`, or to the end if there is none. -/
def seek (c : Cursor) (p : UInt8 → Bool) : Cursor :=
  match c.rest.findIdx? p with
  | some offset => c.advance offset
  | none => c.toEnd

/-- Move to the next line feed, which is not passed, or to the end. -/
def toLineEnd (c : Cursor) : Cursor := c.seek (· == Lexeme.lf)

/-- Move to the next byte that can end or escape a run quoted by `quote`.  The byte found
    comes with the cursor; it is zero when the source ends first. -/
def toQuoteDelimiter (c : Cursor) (quote : UInt8) : UInt8 × Cursor :=
  let found := c.seek (Lexeme.isQuoteDelimiter quote)
  (found.current, found)

/-- Move behind the next `*/`.  Without one the answer is `false` and the cursor goes to
    the end. -/
def pastCommentEnd (c : Cursor) : Bool × Cursor :=
  match Lexeme.commentEnd? c.rest with
  | some n => (true, c.advance n)
  | none => (false, c.toEnd)

/-- The source bytes from `start` up to `stop`; empty when they are reversed. -/
def slice (c : Cursor) (start stop : Nat) : List UInt8 :=
  (c.source.take stop).drop start

/-! ## §3. First facts -/

/-- The cursor is at the end exactly when its offset has reached the source's length. -/
theorem atEnd_iff (c : Cursor) : c.atEnd = true ↔ c.source.length ≤ c.pos := by
  simp [atEnd, c.rest_eq]

@[simp] theorem source_advance (c : Cursor) (n : Nat) : (c.advance n).source = c.source := rfl

@[simp] theorem pos_advance (c : Cursor) (n : Nat) : (c.advance n).pos = c.pos + n := rfl

@[simp] theorem rest_advance (c : Cursor) (n : Nat) : (c.advance n).rest = c.rest.drop n := rfl

/-- Running over a class leaves exactly what `dropWhile` leaves. -/
theorem rest_eatWhile (c : Cursor) (p : UInt8 → Bool) :
    (c.eatWhile p).rest = c.rest.dropWhile p := by
  simp only [eatWhile, rest_advance]
  induction c.rest with
  | nil => rfl
  | cons b bs ih =>
    by_cases h : p b = true
    · simpa [List.takeWhile_cons, List.dropWhile_cons, h] using ih
    · simp [h]

end Cursor

end KernelPrep
