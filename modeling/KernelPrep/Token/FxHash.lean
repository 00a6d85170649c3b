/-
  KernelPrep.Token.FxHash — the hash of contents that the program is built with.

  Nothing that is proved of the program depends on the choice, except for what is said of
  fixed inputs.  The function is quick and easily fooled: words of sixteen letters with one
  hash are found in no time.

  Main definitions:
    * `FxHash.ofBytes`     — the word that bytes count as;
    * `FxHash.contentHash` — the hash of texts and of rows of hashes.
-/
import KernelPrep.Token.Hash

namespace KernelPrep

namespace FxHash

/-- The factor by which a state is multiplied for each word that it takes in. -/
def multiplier : UInt64 := 0xf1357aea2e62a9c5

/-- The two halves of the state that bytes are mixed into, at the start. -/
def seeds : UInt64 × UInt64 := (0x243f6a8885a308d3, 0x13198a2e03707344)

/-- What keeps zero bytes from wiping out the state. -/
def guard : UInt64 := 0xa4093822299f31d0

/-- The full product of two words, its halves laid over each other. -/
def mix (x y : UInt64) : UInt64 :=
  let full := x.toNat * y.toNat
  UInt64.ofNat full ^^^ UInt64.ofNat (full >>> 64)

/-- The number that bytes spell, the lowest first. -/
def wordOf (bytes : List UInt8) : UInt64 :=
  bytes.foldr (fun byte word => word <<< 8 ||| byte.toUInt64) 0

/-- The word of the eight bytes from a place on. -/
def wordAt (bytes : List UInt8) (place : Nat) : UInt64 := wordOf ((bytes.drop place).take 8)

/-- The state after the blocks of sixteen bytes before the last one. -/
def blocks (bytes : List UInt8) : UInt64 × UInt64 :=
  (List.range ((bytes.length - 1) / 16)).foldl
    (fun (a, b) i => (b, mix (a ^^^ wordAt bytes (16 * i)) (guard ^^^ wordAt bytes (16 * i + 8))))
    seeds

/-- The word that bytes count as: from both ends, which overlap if the bytes are few. -/
def ofBytes (bytes : List UInt8) : UInt64 :=
  let size := bytes.length
  let (a, b) := blocks bytes
  let (first, last) :=
    if 16 < size then (wordAt bytes (size - 16), wordAt bytes (size - 8))
    else if 8 ≤ size then (wordAt bytes 0, wordAt bytes (size - 8))
    else if 4 ≤ size then (wordOf (bytes.take 4), wordOf (bytes.drop (size - 4)))
    else if 0 < size then
      ((bytes.getD 0 0).toUInt64,
        (bytes.getD (size - 1) 0).toUInt64 <<< 8 ||| (bytes.getD (size / 2) 0).toUInt64)
    else (0, 0)
  mix (a ^^^ first) (b ^^^ last) ^^^ UInt64.ofNat size

/-- A state that takes in one more word. -/
def add (state word : UInt64) : UInt64 := (state + word) * multiplier

/-- The hash in a state, its higher bits first. -/
def finish (state : UInt64) : UInt64 := state <<< 26 ||| state >>> 38

end FxHash

/-- The hash function that the program is built with. -/
instance FxHash.contentHash : ContentHash where
  ofText text := FxHash.finish (FxHash.add 0 (FxHash.ofBytes (Text.bytes text)))
  combine hashes := FxHash.finish (hashes.foldl FxHash.add 0)

/-- Two rows of words with one hash. -/
example : ContentHash.combine (["Texture2Du", "hcpgceafcmjphbfk"].map ContentHash.ofText)
      = 15339082893567390602
    ∧ ContentHash.combine (["Texture3Dn", "cjgiikblgfkohfnk"].map ContentHash.ofText)
      = 15339082893567390602 := by
  decide +kernel

end KernelPrep
