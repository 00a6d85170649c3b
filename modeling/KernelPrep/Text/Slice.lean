/-
  KernelPrep.Text.Slice — pieces of a text cut out by byte offsets.

  Source positions throughout the library are counted in bytes of UTF-8.  A pair of
  offsets denotes a piece of text only when both stand on character boundaries inside
  the text and are in order; every other pair denotes the empty text.

  Main definitions:
    * `Text.bytes`     — the UTF-8 bytes of a text, as a list;
    * `Text.slice`     — the piece between two byte offsets;
    * `Text.charAt?`   — the character that starts at a byte offset;
    * `Text.lineFeeds` — how many line feeds a text holds.
-/

namespace KernelPrep.Text

/-! ## §1. Bytes -/

/-- The UTF-8 bytes of a text. -/
def bytes (text : String) : List UInt8 := text.toUTF8.data.toList

/-- The text that a list of bytes spells, if the bytes are valid UTF-8. -/
def ofBytes? (bytes : List UInt8) : Option String := String.fromUTF8? ⟨bytes.toArray⟩

/-! ## §2. Pieces by byte offset -/

/-- The piece of `text` from byte `start` up to byte `stop`; empty when the offsets are
    reversed, out of bounds or inside a character. -/
def slice (text : String) (start stop : Nat) : String :=
  let utf8 := text.toUTF8
  if start ≤ stop ∧ stop ≤ utf8.size then
    (String.fromUTF8? (utf8.extract start stop)).getD ""
  else ""

/-- The character whose encoding starts at byte `start`, if one does. -/
def charAt? (text : String) (start : Nat) : Option Char :=
  (slice text start text.utf8ByteSize).toList.head?

/-! ## §3. Lines -/

/-- The number of line feeds in a text. -/
def lineFeeds (text : String) : Nat := text.toList.count '\n'

end KernelPrep.Text
