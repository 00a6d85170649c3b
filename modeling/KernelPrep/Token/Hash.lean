/-
  KernelPrep.Token.Hash — hashes of contents.

  Words are compared by hashes of what they spell, and rows of words by one hash made of
  those.  The hash function is not part of the program, which only relies on it giving a
  number: whatever is said of the program holds for every hash function.  Different rows of
  words may well have one hash; where it matters that those of a file have not, it is said.

  Main definitions:
    * `ContentHash` — a hash of texts, and one of rows of hashes.
-/
import KernelPrep.Text.Slice

namespace KernelPrep

/-- A hash of contents. -/
class ContentHash where
  /-- The hash of a text. -/
  ofText : String → UInt64
  /-- One hash for a row of hashes. -/
  combine : List UInt64 → UInt64

end KernelPrep
