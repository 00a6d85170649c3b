/-
  KernelPrep.Lexeme.Scan — cutting a source into lexemes.

  `Lexeme.next?` decides by the byte at the cursor, with one byte of lookahead, and moves
  the cursor behind the lexeme.  The lengths of the open-ended classes are structural
  functions on the bytes ahead.  Since each lexeme has at least one byte, a source of `n`
  bytes has at most `n` lexemes, which is the bound of `Lexeme.scan`.

  Main definitions:
    * `Lexeme.next?` — the lexeme at a cursor and the cursor behind it, `none` at the end;
    * `Lexeme.scan`  — all lexemes of a source, each with its offset.

  Main statement: `Lexeme.next?_eq_none_iff` — there is no next lexeme exactly at the end.
-/
import KernelPrep.Lexeme.Basic
import KernelPrep.Lexeme.Cursor
import KernelPrep.Text.Slice

namespace KernelPrep.Lexeme

/-! ## §1. Byte classes -/

/-- The ASCII digits. -/
def isDigit (b : UInt8) : Bool := 0x30 ≤ b && b ≤ 0x39

/-- The ASCII letters and the underscore. -/
def isIdentStart (b : UInt8) : Bool :=
  (0x61 ≤ b && b ≤ 0x7A) || (0x41 ≤ b && b ≤ 0x5A) || b == 0x5F

/-- What an identifier may go on with. -/
def isIdentPart (b : UInt8) : Bool := isIdentStart b || isDigit b

/-- Space, tab, vertical tab and form feed. -/
def isSpace (b : UInt8) : Bool := b == 0x20 || b == 0x09 || b == 0x0B || b == 0x0C

/-! ## §2. Lengths of the open-ended classes -/

/-- The length of the blank run ahead.  A carriage return belongs to it unless a line feed
    follows. -/
def blankLength : List UInt8 → Nat
  | [] => 0
  | b :: rest =>
    if isSpace b || (b == cr && rest.headD 0 != lf) then blankLength rest + 1 else 0

/-- Whether `byte` is the sign of an exponent, given the byte before it.  A hexadecimal
    number has `p` exponents only, since `e` is one of its digits. -/
def isExponentSign (hex : Bool) (before byte : UInt8) : Bool :=
  (byte == 0x2B || byte == 0x2D)
    && (before == 0x70 || before == 0x50 || (!hex && (before == 0x65 || before == 0x45)))

/-- The length of the part of a number ahead, whose last byte so far is `before`. -/
def numberLength (hex : Bool) (before : UInt8) : List UInt8 → Nat
  | [] => 0
  | b :: rest =>
    -- suffixes, digits of any base and further points are not told apart: all belong to it
    if isIdentPart b || b == 0x2E || isExponentSign hex before b then
      numberLength hex b rest + 1
    else 0

/-- The length of the part of a quoted run that follows its opening quote, and whether the
    closing quote is in it.  A backslash escapes the next byte, or a whole line end of two
    bytes, so a continued line keeps the run open. -/
def quotedLength (quote : UInt8) : List UInt8 → Nat × Bool
  | [] => (0, false)
  | b :: rest =>
    if b = backslash then
      match rest with
      | [] => (1, false)
      | e :: more =>
        if e = cr then
          -- `\` and a carriage return may be a continued line, which takes the line feed along
          match more with
          | [] => (2, false)
          | l :: tail =>
            if l = lf then
              let (n, closed) := quotedLength quote tail
              (n + 3, closed)
            else
              let (n, closed) := quotedLength quote (l :: tail)
              (n + 2, closed)
        else
          let (n, closed) := quotedLength quote more
          (n + 2, closed)
    -- a bare line end leaves the run open, and is not part of it
    else if b = lf ∨ b = cr then (0, false)
    else if b = quote then (1, true)
    else
      let (n, closed) := quotedLength quote rest
      (n + 1, closed)

/-! ## §3. One lexeme -/

/-- The lexeme of tag `tag` between two cursors. -/
def between (tag : Tag) (start stop : Cursor) : Lexeme × Cursor :=
  (⟨tag, stop.pos - start.pos⟩, stop)

/-- An operator, two characters before one, or else a byte of no class. -/
def operator (c : Cursor) : Lexeme × Cursor :=
  let b := c.current
  if pairs.contains (b, c.peek) then between (.pair b c.peek) c (c.advance 2)
  else if singles.contains b then between (.single b) c (c.advance 1)
  else between (.invalidByte b) c (c.advance 1)

/-- A blank run. -/
def blank (c : Cursor) : Lexeme × Cursor :=
  between .whitespace c (c.advance (blankLength c.rest))

/-- A number, the cursor standing on its first byte. -/
def number (c : Cursor) : Lexeme × Cursor :=
  let hex := c.current == 0x30 && (c.peek == 0x78 || c.peek == 0x58)
  between .number c (c.advance (1 + numberLength hex c.current (c.rest.drop 1)))

/-- A run quoted by the byte at the cursor. -/
def quoted (c : Cursor) : Lexeme × Cursor :=
  let (n, closed) := quotedLength c.current (c.rest.drop 1)
  between (if closed then .string else .unterminatedString) c (c.advance (1 + n))

/-- A comment or an operator that starts with a slash. -/
def slash (c : Cursor) : Lexeme × Cursor :=
  if c.peek = 0x2F then between .lineComment c (c.advance 2).toLineEnd
  else if c.peek = 0x2A then
    let (closed, stop) := (c.advance 2).pastCommentEnd
    between (if closed then .blockComment else .unterminatedComment) c stop
  else operator c

/-- The lexeme at the cursor and the cursor behind it; `none` at the end of the source. -/
def next? (c : Cursor) : Option (Lexeme × Cursor) :=
  if c.atEnd then none
  else
    let b := c.current
    some <|
      if b = 0 then between .interiorNull c (c.advance 1)
      else if isSpace b then blank c
      else if b = cr then
        -- a carriage return alone is a blank, not a line end
        if c.peek = lf then between .newline c (c.advance 2) else blank c
      else if b = lf then between .newline c (c.advance 1)
      else if isIdentStart b then between .ident c ((c.advance 1).eatWhile isIdentPart)
      else if isDigit b then number c
      else if b = 0x2E then if isDigit c.peek then number c else operator c
      else if b = 0x22 ∨ b = 0x27 then quoted c
      else if b = 0x2F then slash c
      else operator c

/-- There is no next lexeme exactly at the end. -/
theorem next?_eq_none_iff (c : Cursor) : next? c = none ↔ c.atEnd = true := by
  simp [next?]

/-! ## §4. All lexemes -/

/-- At most `fuel` lexemes from the cursor on, each with its offset. -/
def scanFrom : Nat → Cursor → List (Nat × Lexeme)
  | 0, _ => []
  | fuel + 1, c =>
    match next? c with
    | none => []
    | some (lexeme, c') => (c.pos, lexeme) :: scanFrom fuel c'

/-- All lexemes of a source text, each with the offset of its first byte. -/
def scan (source : String) : List (Nat × Lexeme) :=
  let bytes := Text.bytes source
  scanFrom bytes.length (Cursor.start bytes)

end KernelPrep.Lexeme
