/-
  KernelPrep.Texture.Signature — what a texture keyword says.

  `Texture2Dn` names a texture of two dimensions read as normalised floats, `Texture2Du`
  one whose elements are read as they are, and `Surface2D` a surface, which is always read
  as it is.

  Main definitions:
    * `TextureKind`, `ReadMode`, `Signature` — the parts of a keyword's meaning;
    * `Signature.ofKeyword?`                 — the meaning of a word.
-/

namespace KernelPrep

/-- Textures are read through a sampler, surfaces directly. -/
inductive TextureKind where
  | texture | surface
deriving DecidableEq, Repr, Inhabited

/-- Whether a read gives the element or a normalised float. -/
inductive ReadMode where
  | raw | normalized
deriving DecidableEq, Repr, Inhabited

namespace TextureKind

/-- The word that starts keywords and synthesized names of the kind. -/
def stem : TextureKind → String
  | .texture => "Texture"
  | .surface => "Surface"

/-- The byte for the kind in binding tables. -/
def tag : TextureKind → UInt8
  | .texture => 0
  | .surface => 1

end TextureKind

namespace ReadMode

/-- The byte for the mode in binding tables, which is also its letter in keywords. -/
def tag : ReadMode → UInt8
  | .raw => 0x75
  | .normalized => 0x6E

end ReadMode

/-- What a texture keyword says. -/
structure Signature where
  kind : TextureKind
  dims : UInt8
  mode : ReadMode
deriving DecidableEq, Repr, Inhabited

namespace Signature

/-- The number of dimensions that a digit stands for. -/
def dims? : Char → Option UInt8
  | '1' => some 1
  | '2' => some 2
  | '3' => some 3
  | _ => none

/-- The mode that the last letter of a texture keyword stands for. -/
def mode? : Char → Option ReadMode
  | 'u' => some .raw
  | 'n' => some .normalized
  | _ => none

/-- The meaning of a word, if it is a texture keyword. -/
def ofKeyword? (word : String) : Option Signature :=
  match word.toList with
  | ['T', 'e', 'x', 't', 'u', 'r', 'e', dims, 'D', mode] => do
    return { kind := .texture, dims := ← dims? dims, mode := ← mode? mode }
  | ['S', 'u', 'r', 'f', 'a', 'c', 'e', dims, 'D'] => do
    return { kind := .surface, dims := ← dims? dims, mode := .raw }
  | _ => none

end Signature

end KernelPrep
