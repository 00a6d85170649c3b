/-
  KernelPrep.Texture.BindingTable — the table of kernel textures for host programs.

  The host has to know which textures a kernel takes and how they are bound.  The table
  lists, for every kernel definition, its texture parameters in source order.  Its layout,
  with all counts as 32-bit little-endian numbers:

    tag `KPPTEX01`, kernel count, and per kernel
      length and bytes of its name, parameter count, and per parameter
        length and bytes of its binding, kind byte, dimension byte, mode byte.

  A surface is always read as it is, whatever mode is recorded for it.  Bytes behind the
  last kernel are not looked at.

  Main definitions:
    * `KernelTextures`, `BoundParam` — the entries of the table;
    * `BindingTable.encode`, `BindingTable.decode` — its bytes and back.
-/
import KernelPrep.Text.Slice
import KernelPrep.Texture.Signature

namespace KernelPrep

/-- A texture parameter: what the host binds, and what it is. -/
structure BoundParam where
  binding : String
  kind : TextureKind
  dims : UInt8
  mode : ReadMode
deriving DecidableEq, Repr

/-- The texture parameters of one kernel. -/
structure KernelTextures where
  name : String
  params : List BoundParam
deriving DecidableEq, Repr

namespace BindingTable

/-! ## §1. Writing -/

/-- The eight bytes `KPPTEX01` that start every table. -/
def tag : List UInt8 := [0x4B, 0x50, 0x50, 0x54, 0x45, 0x58, 0x30, 0x31]

/-- A number as four bytes, lowest first; only its lowest 32 bits are kept. -/
def encodeCount (n : Nat) : List UInt8 :=
  [n.toUInt8, (n >>> 8).toUInt8, (n >>> 16).toUInt8, (n >>> 24).toUInt8]

/-- A text with its length in front. -/
def encodeText (text : String) : List UInt8 :=
  let bytes := Text.bytes text
  encodeCount bytes.length ++ bytes

/-- One parameter. -/
def encodeParam (param : BoundParam) : List UInt8 :=
  -- a surface has no mode of its own in the table
  let mode : ReadMode := match param.kind with
    | .texture => param.mode
    | .surface => .raw
  encodeText param.binding ++ [param.kind.tag, param.dims, mode.tag]

/-- One kernel. -/
def encodeKernel (kernel : KernelTextures) : List UInt8 :=
  encodeText kernel.name ++ encodeCount kernel.params.length ++ kernel.params.flatMap encodeParam

/-- The whole table. -/
def encode (kernels : List KernelTextures) : List UInt8 :=
  tag ++ encodeCount kernels.length ++ kernels.flatMap encodeKernel

/-! ## §2. Reading -/

/-- Why bytes are no table. -/
inductive Fault where
  | badTag
  | truncated
  | badKind (byte : UInt8)
  | badMode (byte : UInt8)
  | badName
deriving DecidableEq, Repr

/-- A byte as two hexadecimal digits. -/
def hexByte (byte : UInt8) : String :=
  String.ofList [Nat.digitChar (byte.toNat / 16), Nat.digitChar (byte.toNat % 16)]

/-- The wording of the fault. -/
def Fault.message : Fault → String
  | .badTag => "missing `KPPTEX01` tag"
  | .truncated => "side-table ends early"
  | .badKind byte => "unknown texture kind " ++ toString byte.toNat
  | .badMode byte => "unknown read mode 0x" ++ hexByte byte
  | .badName => "name is not UTF-8"

/-- A step that reads from the front of some bytes. -/
abbrev Decoding := StateT (List UInt8) (Except Fault)

/-- The next `n` bytes, all of which must be there. -/
def take (n : Nat) : Decoding (List UInt8) := fun bytes =>
  if bytes.length < n then .error .truncated else .ok (bytes.take n, bytes.drop n)

/-- The next byte. -/
def decodeByte : Decoding UInt8 := do
  return (← take 1).headD 0

/-- The number that bytes stand for, lowest first. -/
def numberOf : List UInt8 → Nat
  | [] => 0
  | b :: rest => b.toNat + 256 * numberOf rest

/-- A count. -/
def decodeCount : Decoding Nat := do
  return numberOf (← take 4)

/-- A text behind its length. -/
def decodeText : Decoding String := do
  let bytes ← take (← decodeCount)
  match Text.ofBytes? bytes with
  | some text => return text
  | none => throw .badName

/-- A kind byte. -/
def decodeKind : Decoding TextureKind := do
  let byte ← decodeByte
  if byte = TextureKind.texture.tag then return .texture
  else if byte = TextureKind.surface.tag then return .surface
  else throw (.badKind byte)

/-- A mode byte. -/
def decodeMode : Decoding ReadMode := do
  let byte ← decodeByte
  if byte = ReadMode.raw.tag then return .raw
  else if byte = ReadMode.normalized.tag then return .normalized
  else throw (.badMode byte)

/-- One parameter. -/
def decodeParam : Decoding BoundParam := do
  let binding ← decodeText
  let kind ← decodeKind
  let dims ← decodeByte
  let mode ← decodeMode
  return { binding, kind, dims, mode }

/-- The given number of entries, one after the other. -/
def decodeMany {α : Type} (entry : Decoding α) : Nat → Decoding (List α)
  | 0 => return []
  | n + 1 => do
    let a ← entry
    return a :: (← decodeMany entry n)

/-- One kernel. -/
def decodeKernel : Decoding KernelTextures := do
  let name ← decodeText
  let params ← decodeMany decodeParam (← decodeCount)
  return { name, params }

/-- The kernels of a table. -/
def decode (bytes : List UInt8) : Except Fault (List KernelTextures) := do
  -- bytes that end within the tag have a bad tag, and are no truncated table
  if bytes.take tag.length ≠ tag then throw .badTag
  let (kernels, _) ← (do decodeMany decodeKernel (← decodeCount)).run (bytes.drop tag.length)
  return kernels

end BindingTable

end KernelPrep
