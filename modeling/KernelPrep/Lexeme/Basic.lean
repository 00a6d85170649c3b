/-
  KernelPrep.Lexeme.Basic — the smallest units of a source text.

  A lexeme is a tag and a length in bytes; where it starts follows from those before it.
  Nothing is looked up or evaluated at this level: an identifier is not yet a keyword and
  a number has no value.  What cannot be read is a lexeme too, of an error tag.

  Main definitions:
    * `Lexeme.Tag`     — the classes of lexemes;
    * `Lexeme`         — a tag with its length;
    * `Lexeme.singles`, `Lexeme.pairs` — the operator characters and character pairs.
-/

namespace KernelPrep

namespace Lexeme

/-- The class of a lexeme. -/
inductive Tag where
  /-- Spaces, tabs, vertical tabs, form feeds, and carriage returns that end no line. -/
  | whitespace
  /-- A line feed, alone or after a carriage return. -/
  | newline
  /-- `//` up to the next line feed, which is not included. -/
  | lineComment
  /-- `/*` through the first `*/`. -/
  | blockComment
  /-- A run of letters, digits and underscores that does not start with a digit. -/
  | ident
  /-- A run that starts with a digit, or with a dot before a digit. -/
  | number
  /-- A quoted run, its quotes included. -/
  | string
  /-- An operator of one character. -/
  | single (byte : UInt8)
  /-- An operator of two characters. -/
  | pair (first second : UInt8)
  /-- A quoted run that meets the end of its line or of the source. -/
  | unterminatedString
  /-- `/*` without a `*/` behind it. -/
  | unterminatedComment
  /-- A byte of no class. -/
  | invalidByte (byte : UInt8)
  /-- A zero byte inside the source. -/
  | interiorNull
deriving DecidableEq, Repr

/-- Whether the tag marks something that cannot be read. -/
def Tag.isError : Tag → Bool
  | .unterminatedString | .unterminatedComment | .invalidByte _ | .interiorNull => true
  | _ => false

/-- The characters that are operators on their own: ``()[]{}<>,;:.+-*/%=!~&|^?#\``. -/
def singles : List UInt8 :=
  [0x28, 0x29, 0x5B, 0x5D, 0x7B, 0x7D, 0x3C, 0x3E, 0x2C, 0x3B, 0x3A, 0x2E, 0x2B, 0x2D, 0x2A,
    0x2F, 0x25, 0x3D, 0x21, 0x7E, 0x26, 0x7C, 0x5E, 0x3F, 0x23, 0x5C]

/-- The character pairs that are one operator, preferred to the single characters:
    `<=`, `>=`, `==`, `!=`, `<<`, `>>`, `++`, `--`, `->`, `&&`, `||`, `+=`, `-=`, `*=`,
    `/=`, `%=`, `&=`, `|=`, `^=`, `::`, `##`. -/
def pairs : List (UInt8 × UInt8) :=
  [(0x3C, 0x3D), (0x3E, 0x3D), (0x3D, 0x3D), (0x21, 0x3D), (0x3C, 0x3C), (0x3E, 0x3E),
    (0x2B, 0x2B), (0x2D, 0x2D), (0x2D, 0x3E), (0x26, 0x26), (0x7C, 0x7C), (0x2B, 0x3D),
    (0x2D, 0x3D), (0x2A, 0x3D), (0x2F, 0x3D), (0x25, 0x3D), (0x26, 0x3D), (0x7C, 0x3D),
    (0x5E, 0x3D), (0x3A, 0x3A), (0x23, 0x23)]

end Lexeme

/-- A tag and the number of bytes it covers. -/
structure Lexeme where
  tag : Lexeme.Tag
  length : Nat
deriving DecidableEq, Repr

end KernelPrep
