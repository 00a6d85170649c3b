/-
  KernelPrep.Proofs.Texture.TableFormat — the format of binding tables.

  The format is said here byte by byte, apart from the functions that write and read tables:
  a tag, and then counts, names and entries one behind the other.  A reader has to accept
  exactly the bytes that begin with a table of the format, whatever stands behind it, and to
  refuse all others, however large the counts are that they hold.

  Main definitions:
    * `BindingTable.Format.Count`, `BindingTable.Format.Name` — numbers and texts;
    * `BindingTable.Format.Param`, `BindingTable.Format.Kernel` — entries;
    * `BindingTable.Format.Table` — whole tables.

  Main statement: `BindingTable.decode_format` — a table is read exactly where the bytes begin
  with one.
-/
import KernelPrep.Proofs.Texture.Codec

namespace KernelPrep.BindingTable

/-! ## §1. The format -/

namespace Format

/-- A number of 32 bits as four bytes, lowest first. -/
inductive Count : Nat → List UInt8 → Prop where
  | mk (a b c d : UInt8) :
      Count (a.toNat + 2 ^ 8 * b.toNat + 2 ^ 16 * c.toNat + 2 ^ 24 * d.toNat) [a, b, c, d]

/-- A text in UTF-8 behind the number of its bytes. -/
inductive Name : String → List UInt8 → Prop where
  | mk {text : String} {count : List UInt8} : Count (Text.bytes text).length count →
      Name text (count ++ Text.bytes text)

/-- The byte of a kind. -/
inductive KindByte : TextureKind → UInt8 → Prop where
  | texture : KindByte .texture 0
  | surface : KindByte .surface 1

/-- The byte of a mode: `u` or `n`. -/
inductive ModeByte : ReadMode → UInt8 → Prop where
  | raw : ModeByte .raw 'u'.toUInt8
  | normalized : ModeByte .normalized 'n'.toUInt8

/-- A parameter: its binding and three bytes, of which that for the dimensions is free. -/
inductive Param : BoundParam → List UInt8 → Prop where
  | mk {binding : String} {front : List UInt8} {kind : TextureKind} {kindByte : UInt8}
      {dims : UInt8} {mode : ReadMode} {modeByte : UInt8} : Name binding front →
      KindByte kind kindByte → ModeByte mode modeByte →
      Param { binding, kind, dims, mode } (front ++ [kindByte, dims, modeByte])

/-- Entries one behind the other. -/
inductive Row {α : Type} (entry : α → List UInt8 → Prop) : List α → List UInt8 → Prop where
  | nil : Row entry [] []
  | cons {a : α} {items : List α} {front rest : List UInt8} : entry a front →
      Row entry items rest → Row entry (a :: items) (front ++ rest)

/-- A kernel: its name, the number of its parameters, and these. -/
inductive Kernel : KernelTextures → List UInt8 → Prop where
  | mk {name : String} {params : List BoundParam} {front count body : List UInt8} :
      Name name front → Count params.length count → Row Param params body →
      Kernel { name, params } (front ++ count ++ body)

/-- A table: the tag, the number of its kernels, and these. -/
inductive Table : List KernelTextures → List UInt8 → Prop where
  | mk {kernels : List KernelTextures} {count body : List UInt8} :
      Count kernels.length count → Row Kernel kernels body →
      Table kernels (Text.bytes "KPPTEX01" ++ count ++ body)

end Format

/-! ## §2. The format and the layout -/

open Format

variable {bytes : List UInt8}

/-- Four bytes are a count exactly when they are its encoding. -/
theorem count_iff {n : Nat} : Count n bytes ↔ n < 2 ^ 32 ∧ bytes = encodeCount n := by
  constructor
  · rintro ⟨a, b, c, d⟩
    obtain ⟨hlt, hbytes⟩ := encodeCount_numberOf (show [a, b, c, d].length = 4 from rfl)
    have hnumber : numberOf [a, b, c, d]
        = a.toNat + 2 ^ 8 * b.toNat + 2 ^ 16 * c.toNat + 2 ^ 24 * d.toNat := by
      simp only [numberOf]
      omega
    rw [← hnumber]
    exact ⟨hlt, hbytes.symm⟩
  · rintro ⟨hlt, rfl⟩
    have hnumber := numberOf_encodeCount hlt
    have hmk := Count.mk n.toUInt8 (n >>> 8).toUInt8 (n >>> 16).toUInt8 (n >>> 24).toUInt8
    simp only [encodeCount, numberOf] at hnumber
    rwa [show n.toUInt8.toNat + 2 ^ 8 * (n >>> 8).toUInt8.toNat
      + 2 ^ 16 * (n >>> 16).toUInt8.toNat + 2 ^ 24 * (n >>> 24).toUInt8.toNat = n by omega] at hmk

/-- Bytes are a name exactly when they are its layout. -/
theorem name_iff {text : String} :
    Name text bytes ↔ (Text.bytes text).length < 2 ^ 32 ∧ bytes = encodeText text := by
  constructor
  · rintro ⟨hcount⟩
    obtain ⟨hlt, rfl⟩ := count_iff.mp hcount
    exact ⟨hlt, rfl⟩
  · rintro ⟨hlt, rfl⟩
    exact Name.mk (count_iff.mpr ⟨hlt, rfl⟩)

/-- A byte is that of a kind exactly when it is the kind's tag. -/
theorem kindByte_iff {kind : TextureKind} {byte : UInt8} :
    KindByte kind byte ↔ byte = kind.tag := by
  constructor
  · rintro (_ | _) <;> rfl
  · rintro rfl
    cases kind
    · exact KindByte.texture
    · exact KindByte.surface

/-- A byte is that of a mode exactly when it is the mode's tag. -/
theorem modeByte_iff {mode : ReadMode} {byte : UInt8} :
    ModeByte mode byte ↔ byte = mode.tag := by
  constructor
  · rintro (_ | _) <;> rfl
  · rintro rfl
    cases mode
    · exact ModeByte.raw
    · exact ModeByte.normalized

/-- Bytes are a parameter exactly when they are its layout, and its name fits. -/
theorem param_iff {param : BoundParam} :
    Param param bytes
      ↔ (Text.bytes param.binding).length < 2 ^ 32 ∧ bytes = layoutParam param := by
  constructor
  · rintro ⟨hname, hkind, hmode⟩
    obtain ⟨hlt, rfl⟩ := name_iff.mp hname
    obtain rfl := kindByte_iff.mp hkind
    obtain rfl := modeByte_iff.mp hmode
    exact ⟨hlt, rfl⟩
  · rintro ⟨hlt, rfl⟩
    exact Param.mk (name_iff.mpr ⟨hlt, rfl⟩) (kindByte_iff.mpr rfl) (modeByte_iff.mpr rfl)

/-- Entries one behind the other are the layouts of the entries. -/
theorem row_iff {α : Type} {entry : α → List UInt8 → Prop} {fits : α → Prop}
    {layout : α → List UInt8}
    (h : ∀ {bytes a}, entry a bytes ↔ fits a ∧ bytes = layout a) {items : List α} :
    Row entry items bytes ↔ (∀ a ∈ items, fits a) ∧ bytes = items.flatMap layout := by
  constructor
  · intro hrow
    induction hrow with
    | nil => exact ⟨by simp, rfl⟩
    | cons hentry _ ih =>
      obtain ⟨hfits, rfl⟩ := h.mp hentry
      obtain ⟨hall, rfl⟩ := ih
      exact ⟨List.forall_mem_cons.mpr ⟨hfits, hall⟩, rfl⟩
  · rintro ⟨hall, rfl⟩
    induction items with
    | nil => exact Row.nil
    | cons a items ih =>
      obtain ⟨hfits, hmore⟩ := List.forall_mem_cons.mp hall
      exact Row.cons (h.mpr ⟨hfits, rfl⟩) (ih hmore)

/-- Bytes are a kernel exactly when they are its layout, and the kernel fits. -/
theorem kernel_iff {kernel : KernelTextures} :
    Kernel kernel bytes ↔ FitsKernel kernel ∧ bytes = layoutKernel kernel := by
  constructor
  · rintro ⟨hname, hcount, hparams⟩
    obtain ⟨hlt, rfl⟩ := name_iff.mp hname
    obtain ⟨hmany, rfl⟩ := count_iff.mp hcount
    obtain ⟨hall, rfl⟩ := (row_iff @param_iff).mp hparams
    exact ⟨⟨hlt, hmany, hall⟩, rfl⟩
  · rintro ⟨hfits, rfl⟩
    exact Kernel.mk (name_iff.mpr ⟨hfits.name, rfl⟩) (count_iff.mpr ⟨hfits.count, rfl⟩)
      ((row_iff @param_iff).mpr ⟨hfits.params, rfl⟩)

/-- **Tables of the format** are the layouts of the tables whose counts fit. -/
theorem table_iff {kernels : List KernelTextures} :
    Table kernels bytes ↔ Fits kernels ∧ bytes = layout kernels := by
  have htag : Text.bytes "KPPTEX01" = tag := by decide
  constructor
  · rintro ⟨hcount, hkernels⟩
    obtain ⟨hmany, rfl⟩ := count_iff.mp hcount
    obtain ⟨hall, rfl⟩ := (row_iff @kernel_iff).mp hkernels
    exact ⟨⟨hmany, hall⟩, by rw [htag]; rfl⟩
  · rintro ⟨hfits, rfl⟩
    have htable := Table.mk (count_iff.mpr ⟨hfits.count, rfl⟩)
      ((row_iff @kernel_iff).mpr ⟨hfits.kernels, rfl⟩)
    rwa [htag] at htable

/-! ## §3. Reading -/

/-- **A table is read exactly where the bytes begin with one** of the format, whatever stands
    behind it, and it is that table; all other bytes are refused. -/
theorem decode_format (bytes : List UInt8) :
    (∀ kernels, decode bytes = .ok kernels
      ↔ ∃ front rest, bytes = front ++ rest ∧ Table kernels front)
    ∧ ((∃ fault, decode bytes = .error fault)
      ↔ ∀ front rest, bytes = front ++ rest → ∀ kernels, ¬ Table kernels front) := by
  have hread : ∀ kernels, decode bytes = .ok kernels
      ↔ ∃ front rest, bytes = front ++ rest ∧ Table kernels front := by
    intro kernels
    rw [decode_eq_ok_iff]
    constructor
    · rintro ⟨hfits, rest, hbytes⟩
      exact ⟨layout kernels, rest, hbytes, table_iff.mpr ⟨hfits, rfl⟩⟩
    · rintro ⟨front, rest, hbytes, htable⟩
      obtain ⟨hfits, rfl⟩ := table_iff.mp htable
      exact ⟨hfits, rest, hbytes⟩
  -- a decoder that answers has one of the two answers
  refine ⟨hread, ?_⟩
  constructor
  · rintro ⟨fault, hfault⟩ front rest hbytes kernels htable
    rw [(hread kernels).mpr ⟨front, rest, hbytes, htable⟩] at hfault
    simp at hfault
  · intro hnone
    cases hdecode : decode bytes with
    | error fault => exact ⟨fault, rfl⟩
    | ok kernels =>
      obtain ⟨front, rest, hbytes, htable⟩ := (hread kernels).mp hdecode
      exact absurd htable (hnone front rest hbytes kernels)

end KernelPrep.BindingTable
