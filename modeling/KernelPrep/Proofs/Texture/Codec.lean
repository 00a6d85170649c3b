/-
  KernelPrep.Proofs.Texture.Codec — binding tables are read as they were written.

  Every reader of a binding table takes the layout of one value off the front of the bytes
  and nothing else: it succeeds on exactly the bytes that begin with the layout of a value
  whose counts fit into 32 bits, and leaves what stands behind.  A reader that is made of
  several goes from the layout of one part to that of the next, so that what a whole table
  holds is known from its parts.

  Main definitions:
    * `BindingTable.Exact`  — the reader takes exactly the layout of a value;
    * `BindingTable.layout` — the bytes of a table, each mode as it is recorded;
    * `BindingTable.Fits`   — the counts of a table fit;
    * `BoundParam.stored`   — a parameter as a table keeps it.

  Main statements:
    * `BindingTable.Exact.bind_ok`    — one reader behind another;
    * `BindingTable.decode_eq_ok_iff` — what is read as a table;
    * `BindingTable.decode_encode`    — a table is read as it was written.
-/
import KernelPrep.Proofs.Step
import KernelPrep.Proofs.Text.Encoding
import KernelPrep.Texture.BindingTable
import Mathlib.Algebra.Ring.Nat

namespace KernelPrep

/-- The text of the bytes of a text. -/
theorem Text.ofBytes?_eq_some {bytes : List UInt8} {text : String} :
    Text.ofBytes? bytes = some text ↔ bytes = Text.bytes text := by
  unfold Text.ofBytes? String.fromUTF8?
  constructor
  · intro h
    split at h
    · rw [← Option.some.inj h]
      rfl
    · simp at h
  · rintro rfl
    have hutf8 : (⟨(Text.bytes text).toArray⟩ : ByteArray) = text.toByteArray := rfl
    rw [dif_pos (hutf8 ▸ text.isValidUTF8)]
    rfl

namespace BindingTable

variable {α β : Type}

/-! ## §1. Exact readers -/

/-- The reader succeeds exactly where the layout of a value that fits stands in front, and
    leaves the bytes behind it. -/
def Exact (entry : Decoding α) (fits : α → Prop) (layout : α → List UInt8) : Prop :=
  ∀ bytes a rest, entry bytes = .ok (a, rest) ↔ fits a ∧ bytes = layout a ++ rest

/-- **One reader behind another** goes on behind the layout of what the first one read. -/
theorem Exact.bind_ok {first : Decoding α} {next : α → Decoding β} {fits : α → Prop}
    {layout : α → List UInt8} (h : Exact first fits layout) {bytes rest : List UInt8} {b : β} :
    (first >>= next) bytes = .ok (b, rest)
      ↔ ∃ a more, fits a ∧ bytes = layout a ++ more ∧ next a more = .ok (b, rest) := by
  show (first bytes >>= fun read => next read.1 read.2) = .ok (b, rest) ↔ _
  rw [Step.except_bind_ok]
  constructor
  · rintro ⟨⟨a, more⟩, hread, hnext⟩
    obtain ⟨ha, hbytes⟩ := (h bytes a more).mp hread
    exact ⟨a, more, ha, hbytes, hnext⟩
  · rintro ⟨a, more, ha, hbytes, hnext⟩
    exact ⟨(a, more), (h bytes a more).mpr ⟨ha, hbytes⟩, hnext⟩

/-- A reader that returns a value takes no bytes. -/
theorem pure_ok {a b : α} {bytes rest : List UInt8} :
    (pure a : Decoding α) bytes = .ok (b, rest) ↔ b = a ∧ bytes = rest := by
  show Except.ok (a, bytes) = Except.ok (b, rest) ↔ _
  rw [Except.ok.injEq, Prod.mk.injEq, eq_comm (a := a)]

/-- A reader that fails gives nothing. -/
theorem throw_ok {fault : Fault} {b : α} {bytes rest : List UInt8} :
    ¬ (throw fault : Decoding α) bytes = .ok (b, rest) := by
  show ¬ Except.error fault = Except.ok (b, rest)
  simp

/-- So many bytes are taken, whatever they are. -/
theorem exact_take (n : Nat) : Exact (take n) (·.length = n) id := by
  intro bytes a rest
  show (if bytes.length < n then Except.error Fault.truncated
    else .ok (bytes.take n, bytes.drop n)) = .ok (a, rest) ↔ _
  constructor
  · intro h
    split at h
    · simp at h
    · rename_i hlong
      obtain ⟨rfl, rfl⟩ := Prod.mk.inj (Except.ok.inj h)
      refine ⟨?_, (List.take_append_drop n bytes).symm⟩
      show (bytes.take n).length = n
      rw [List.length_take]
      omega
  · rintro ⟨rfl, rfl⟩
    rw [if_neg (by simp), id, List.take_left, List.drop_left]

/-! ## §2. Numbers and texts -/

/-- One byte is taken, whatever it is. -/
theorem exact_decodeByte : Exact decodeByte (fun _ => True) fun b => [b] := by
  intro bytes b rest
  show (take 1 >>= fun a => pure (a.headD 0) : Decoding UInt8) bytes = _ ↔ _
  rw [(exact_take 1).bind_ok]
  constructor
  · rintro ⟨a, more, hone, rfl, hdone⟩
    obtain ⟨rfl, rfl⟩ := pure_ok.mp hdone
    obtain ⟨x, rfl⟩ := List.length_eq_one_iff.mp hone
    exact ⟨trivial, rfl⟩
  · rintro ⟨-, rfl⟩
    exact ⟨[b], rest, rfl, rfl, pure_ok.mpr ⟨rfl, rfl⟩⟩

/-- A number that fits into 32 bits is read as it was written. -/
theorem numberOf_encodeCount {n : Nat} (h : n < 2 ^ 32) : numberOf (encodeCount n) = n := by
  simp only [encodeCount, numberOf, Nat.toUInt8, UInt8.toNat_ofNat', Nat.shiftRight_eq_div_pow]
  omega

/-- Four bytes are those of the number they stand for. -/
theorem encodeCount_numberOf {bytes : List UInt8} (h : bytes.length = 4) :
    numberOf bytes < 2 ^ 32 ∧ encodeCount (numberOf bytes) = bytes := by
  obtain ⟨a, b, c, d, rfl⟩ : ∃ a b c d, bytes = [a, b, c, d] := by
    match bytes, h with
    | [a, b, c, d], _ => exact ⟨a, b, c, d, rfl⟩
  have ha := a.toNat_lt
  have hb := b.toNat_lt
  have hc := c.toNat_lt
  have hd := d.toNat_lt
  simp only [encodeCount, numberOf, Nat.shiftRight_eq_div_pow]
  refine ⟨by omega, ?_⟩
  -- each byte is found again by dividing
  have hbyte : ∀ (x : UInt8) (m : Nat), m % 256 = x.toNat → m.toUInt8 = x := by
    intro x m hm
    apply UInt8.toNat_inj.mp
    rw [Nat.toUInt8, UInt8.toNat_ofNat']
    exact hm
  rw [hbyte a _ (by omega), hbyte b _ (by omega), hbyte c _ (by omega), hbyte d _ (by omega)]

/-- **A count** is read from its four bytes. -/
theorem exact_decodeCount : Exact decodeCount (· < 2 ^ 32) encodeCount := by
  intro bytes n rest
  show (take 4 >>= fun a => pure (numberOf a) : Decoding Nat) bytes = _ ↔ _
  rw [(exact_take 4).bind_ok]
  constructor
  · rintro ⟨a, more, hfour, rfl, hdone⟩
    obtain ⟨rfl, rfl⟩ := pure_ok.mp hdone
    obtain ⟨hlt, hbytes⟩ := encodeCount_numberOf hfour
    exact ⟨hlt, by rw [hbytes]; rfl⟩
  · rintro ⟨hlt, rfl⟩
    exact ⟨encodeCount n, rest, rfl, rfl, pure_ok.mpr ⟨(numberOf_encodeCount hlt).symm, rfl⟩⟩

/-- **A text** is read behind its length. -/
theorem exact_decodeText :
    Exact decodeText (fun text => (Text.bytes text).length < 2 ^ 32) encodeText := by
  intro bytes text rest
  unfold decodeText
  rw [exact_decodeCount.bind_ok]
  constructor
  · rintro ⟨n, more, hlt, rfl, hmore⟩
    obtain ⟨own, behind, rfl, rfl, hdone⟩ := (exact_take n).bind_ok.mp hmore
    cases hread : Text.ofBytes? own with
    | none =>
      rw [hread] at hdone
      exact absurd hdone throw_ok
    | some read =>
      rw [hread] at hdone
      obtain ⟨rfl, rfl⟩ := pure_ok.mp hdone
      obtain rfl := Text.ofBytes?_eq_some.mp hread
      exact ⟨hlt, by simp [encodeText]⟩
  · rintro ⟨hlt, rfl⟩
    refine ⟨(Text.bytes text).length, Text.bytes text ++ rest, hlt, by simp [encodeText], ?_⟩
    refine (exact_take _).bind_ok.mpr ⟨Text.bytes text, rest, rfl, rfl, ?_⟩
    rw [Text.ofBytes?_eq_some.mpr rfl]
    exact pure_ok.mpr ⟨rfl, rfl⟩

/-! ## §3. Entries -/

/-- The two tags of kinds are read, and no other byte. -/
theorem exact_decodeKind : Exact decodeKind (fun _ => True) fun kind => [kind.tag] := by
  intro bytes kind rest
  unfold decodeKind
  rw [exact_decodeByte.bind_ok]
  constructor
  · rintro ⟨b, more, -, rfl, hdone⟩
    split at hdone
    · obtain ⟨rfl, rfl⟩ := pure_ok.mp hdone
      exact ⟨trivial, by simp_all⟩
    · split at hdone
      · obtain ⟨rfl, rfl⟩ := pure_ok.mp hdone
        exact ⟨trivial, by simp_all⟩
      · exact absurd hdone throw_ok
  · rintro ⟨-, rfl⟩
    refine ⟨kind.tag, rest, trivial, rfl, ?_⟩
    cases kind <;> exact pure_ok.mpr ⟨rfl, rfl⟩

/-- The two tags of read modes are read, and no other byte. -/
theorem exact_decodeMode : Exact decodeMode (fun _ => True) fun mode => [mode.tag] := by
  intro bytes mode rest
  unfold decodeMode
  rw [exact_decodeByte.bind_ok]
  constructor
  · rintro ⟨b, more, -, rfl, hdone⟩
    split at hdone
    · obtain ⟨rfl, rfl⟩ := pure_ok.mp hdone
      exact ⟨trivial, by simp_all⟩
    · split at hdone
      · obtain ⟨rfl, rfl⟩ := pure_ok.mp hdone
        exact ⟨trivial, by simp_all⟩
      · exact absurd hdone throw_ok
  · rintro ⟨-, rfl⟩
    refine ⟨mode.tag, rest, trivial, rfl, ?_⟩
    cases mode <;> exact pure_ok.mpr ⟨rfl, rfl⟩

/-- The bytes of a parameter, its mode as it is recorded. -/
def layoutParam (param : BoundParam) : List UInt8 :=
  encodeText param.binding ++ [param.kind.tag, param.dims, param.mode.tag]

/-- **A parameter** is read from its binding and three bytes. -/
theorem exact_decodeParam :
    Exact decodeParam (fun param => (Text.bytes param.binding).length < 2 ^ 32) layoutParam := by
  intro bytes param rest
  unfold decodeParam
  rw [exact_decodeText.bind_ok]
  constructor
  · rintro ⟨binding, _, hlt, rfl, hbehind⟩
    obtain ⟨kind, _, -, rfl, hkind⟩ := exact_decodeKind.bind_ok.mp hbehind
    obtain ⟨dims, _, -, rfl, hdims⟩ := exact_decodeByte.bind_ok.mp hkind
    obtain ⟨mode, _, -, rfl, hmode⟩ := exact_decodeMode.bind_ok.mp hdims
    obtain ⟨rfl, rfl⟩ := pure_ok.mp hmode
    exact ⟨hlt, by simp [layoutParam]⟩
  · rintro ⟨hlt, rfl⟩
    refine ⟨param.binding, _, hlt, List.append_assoc _ _ _, ?_⟩
    refine exact_decodeKind.bind_ok.mpr ⟨param.kind, _, trivial, rfl, ?_⟩
    refine exact_decodeByte.bind_ok.mpr ⟨param.dims, _, trivial, rfl, ?_⟩
    refine exact_decodeMode.bind_ok.mpr ⟨param.mode, rest, trivial, rfl, ?_⟩
    exact pure_ok.mpr ⟨rfl, rfl⟩

/-- **Entries one behind the other**, as many as are asked for. -/
theorem exact_decodeMany {entry : Decoding α} {fits : α → Prop} {layout : α → List UInt8}
    (h : Exact entry fits layout) (n : Nat) :
    Exact (decodeMany entry n) (fun items => items.length = n ∧ ∀ a ∈ items, fits a)
      fun items => items.flatMap layout := by
  induction n with
  | zero =>
    intro bytes items rest
    show (pure [] : Decoding (List α)) bytes = _ ↔ _
    rw [pure_ok]
    constructor
    · rintro ⟨rfl, rfl⟩
      exact ⟨⟨rfl, by simp⟩, rfl⟩
    · rintro ⟨⟨hnone, -⟩, rfl⟩
      obtain rfl := List.length_eq_zero_iff.mp hnone
      exact ⟨rfl, rfl⟩
  | succ n ih =>
    intro bytes items rest
    show (entry >>= fun a => decodeMany entry n >>= fun more => pure (a :: more)) bytes = _ ↔ _
    rw [h.bind_ok]
    constructor
    · rintro ⟨a, _, ha, rfl, hbehind⟩
      obtain ⟨more, _, ⟨hlength, hall⟩, rfl, hdone⟩ := ih.bind_ok.mp hbehind
      obtain ⟨rfl, rfl⟩ := pure_ok.mp hdone
      exact ⟨⟨by simp [hlength], by simpa using ⟨ha, hall⟩⟩, by simp⟩
    · rintro ⟨⟨hlength, hall⟩, rfl⟩
      -- as many as are asked for are at least one
      obtain ⟨a, more, rfl⟩ := List.exists_cons_of_length_eq_add_one hlength
      obtain ⟨ha, hmore⟩ := List.forall_mem_cons.mp hall
      refine ⟨a, more.flatMap layout ++ rest, ha, by simp, ?_⟩
      exact ih.bind_ok.mpr ⟨more, rest, ⟨by simpa using hlength, hmore⟩, rfl,
        pure_ok.mpr ⟨rfl, rfl⟩⟩

/-- The counts of a kernel fit into 32 bits. -/
structure FitsKernel (kernel : KernelTextures) : Prop where
  name : (Text.bytes kernel.name).length < 2 ^ 32
  count : kernel.params.length < 2 ^ 32
  params : ∀ param ∈ kernel.params, (Text.bytes param.binding).length < 2 ^ 32

/-- The bytes of a kernel. -/
def layoutKernel (kernel : KernelTextures) : List UInt8 :=
  encodeText kernel.name ++ encodeCount kernel.params.length ++ kernel.params.flatMap layoutParam

/-- **A kernel** is read from its name and its parameters. -/
theorem exact_decodeKernel : Exact decodeKernel FitsKernel layoutKernel := by
  intro bytes kernel rest
  unfold decodeKernel
  rw [exact_decodeText.bind_ok]
  constructor
  · rintro ⟨name, _, hname, rfl, hbehind⟩
    obtain ⟨count, _, hcount, rfl, hmany⟩ := exact_decodeCount.bind_ok.mp hbehind
    obtain ⟨params, _, ⟨rfl, hparams⟩, rfl, hdone⟩ :=
      (exact_decodeMany exact_decodeParam count).bind_ok.mp hmany
    obtain ⟨rfl, rfl⟩ := pure_ok.mp hdone
    exact ⟨⟨hname, hcount, hparams⟩, by simp [layoutKernel]⟩
  · rintro ⟨hfits, rfl⟩
    refine ⟨kernel.name, encodeCount kernel.params.length
      ++ (kernel.params.flatMap layoutParam ++ rest), hfits.name, by simp [layoutKernel], ?_⟩
    refine exact_decodeCount.bind_ok.mpr ⟨_, _, hfits.count, rfl, ?_⟩
    refine (exact_decodeMany exact_decodeParam _).bind_ok.mpr
      ⟨kernel.params, rest, ⟨rfl, hfits.params⟩, rfl, ?_⟩
    exact pure_ok.mpr ⟨rfl, rfl⟩

/-! ## §4. Tables -/

/-- The counts of a table fit into 32 bits. -/
structure Fits (kernels : List KernelTextures) : Prop where
  count : kernels.length < 2 ^ 32
  kernels : ∀ kernel ∈ kernels, FitsKernel kernel

/-- The bytes of a table, each mode as it is recorded. -/
def layout (kernels : List KernelTextures) : List UInt8 :=
  tag ++ encodeCount kernels.length ++ kernels.flatMap layoutKernel

/-- What stands behind the tag. -/
def decodeKernels : Decoding (List KernelTextures) := do
  decodeMany decodeKernel (← decodeCount)

/-- So many kernels are read as are counted in front of them. -/
theorem exact_decodeKernels :
    Exact decodeKernels Fits
      fun kernels => encodeCount kernels.length ++ kernels.flatMap layoutKernel := by
  intro bytes kernels rest
  unfold decodeKernels
  rw [exact_decodeCount.bind_ok]
  constructor
  · rintro ⟨count, _, hcount, rfl, hmore⟩
    obtain ⟨⟨rfl, hall⟩, rfl⟩ := (exact_decodeMany exact_decodeKernel count _ _ _).mp hmore
    exact ⟨⟨hcount, hall⟩, by simp⟩
  · rintro ⟨hfits, rfl⟩
    refine ⟨_, _, hfits.count, List.append_assoc _ _ _, ?_⟩
    exact (exact_decodeMany exact_decodeKernel _ _ _ _).mpr ⟨⟨rfl, hfits.kernels⟩, rfl⟩

/-- Behind the tag the kernels are read. -/
theorem decode_tag_append (bytes : List UInt8) :
    decode (tag ++ bytes) = decodeKernels bytes >>= fun read => pure read.1 := by
  unfold decode
  rw [if_neg (by rw [List.take_left]; simp), List.drop_left]
  rfl

/-- Without the tag nothing is read. -/
theorem decode_badTag {bytes : List UInt8} (h : bytes.take tag.length ≠ tag) :
    decode bytes = .error .badTag := by
  unfold decode
  rw [if_pos h]
  rfl

/-- What is read behind the tag is a table whose layout stands there. -/
theorem decode_tag_append_ok {bytes : List UInt8} {kernels : List KernelTextures} :
    decode (tag ++ bytes) = .ok kernels
      ↔ Fits kernels ∧ ∃ rest, tag ++ bytes = layout kernels ++ rest := by
  rw [decode_tag_append, Step.except_bind_ok]
  constructor
  · rintro ⟨⟨read, rest⟩, hread, hdone⟩
    obtain ⟨hfits, rfl⟩ := (exact_decodeKernels bytes read rest).mp hread
    obtain rfl : read = kernels := Except.ok.inj hdone
    exact ⟨hfits, rest, by simp [layout]⟩
  · rintro ⟨hfits, rest, hbytes⟩
    have hbehind : bytes
        = (encodeCount kernels.length ++ kernels.flatMap layoutKernel) ++ rest := by
      refine List.append_cancel_left (hbytes.trans ?_)
      simp [layout]
    exact ⟨(kernels, rest), (exact_decodeKernels bytes kernels rest).mpr ⟨hfits, hbehind⟩, rfl⟩

/-- **What is read as a table** begins with the layout of its kernels. -/
theorem decode_eq_ok_iff {bytes : List UInt8} {kernels : List KernelTextures} :
    decode bytes = .ok kernels ↔ Fits kernels ∧ ∃ rest, bytes = layout kernels ++ rest := by
  by_cases htag : bytes.take tag.length = tag
  · have hbytes : bytes = tag ++ bytes.drop tag.length := by
      conv_lhs => rw [← List.take_append_drop tag.length bytes, htag]
    rw [hbytes]
    exact decode_tag_append_ok
  · rw [decode_badTag htag]
    constructor
    · intro h
      simp at h
    · rintro ⟨-, rest, rfl⟩
      exact absurd (by simp [layout, tag]) htag

end BindingTable

/-! ## §5. Tables that were written -/

/-- The parameter as a table keeps it: a surface is read as it is. -/
def BoundParam.stored (param : BoundParam) : BoundParam :=
  match param.kind with
  | .texture => param
  | .surface => { param with mode := .raw }

/-- The kernel as a table keeps it. -/
def KernelTextures.stored (kernel : KernelTextures) : KernelTextures :=
  { kernel with params := kernel.params.map BoundParam.stored }

namespace BindingTable

/-- A parameter is written as it is stored. -/
theorem encodeParam_eq (param : BoundParam) : encodeParam param = layoutParam param.stored := by
  obtain ⟨binding, kind, dims, mode⟩ := param
  cases kind <;> rfl

/-- A kernel is written as it is stored. -/
theorem encodeKernel_eq (kernel : KernelTextures) :
    encodeKernel kernel = layoutKernel kernel.stored := by
  have hparams : kernel.params.flatMap encodeParam
      = (kernel.params.map BoundParam.stored).flatMap layoutParam := by
    rw [List.flatMap_map]
    exact List.flatMap_congr fun param _ => encodeParam_eq param
  simp [encodeKernel, layoutKernel, KernelTextures.stored, hparams]

/-- A table is written in the layout of what it keeps. -/
theorem encode_eq (kernels : List KernelTextures) :
    encode kernels = layout (kernels.map KernelTextures.stored) := by
  have hkernels : kernels.flatMap encodeKernel
      = (kernels.map KernelTextures.stored).flatMap layoutKernel := by
    rw [List.flatMap_map]
    exact List.flatMap_congr fun kernel _ => encodeKernel_eq kernel
  simp [encode, layout, hkernels]

/-- A parameter is stored under its binding. -/
theorem stored_binding (param : BoundParam) : param.stored.binding = param.binding := by
  obtain ⟨binding, kind, dims, mode⟩ := param
  cases kind <;> rfl

/-- A kernel that fits still fits as it is stored. -/
theorem FitsKernel.stored {kernel : KernelTextures} (h : FitsKernel kernel) :
    FitsKernel kernel.stored where
  name := h.name
  count := by
    rw [KernelTextures.stored, List.length_map]
    exact h.count
  params := by
    intro param hparam
    obtain ⟨own, hown, rfl⟩ := List.mem_map.mp hparam
    rw [stored_binding]
    exact h.params own hown

/-- A table that fits still fits as it is stored. -/
theorem Fits.stored {kernels : List KernelTextures} (h : Fits kernels) :
    Fits (kernels.map KernelTextures.stored) where
  count := by
    rw [List.length_map]
    exact h.count
  kernels := by
    intro kernel hkernel
    obtain ⟨own, hown, rfl⟩ := List.mem_map.mp hkernel
    exact (h.kernels own hown).stored

/-- **A table is read as it was written**, when its counts fit: every kernel and every
    parameter is there again in its place, and only the modes of surfaces have become raw. -/
theorem decode_encode {kernels : List KernelTextures} (h : Fits kernels) :
    decode (encode kernels) = .ok (kernels.map KernelTextures.stored) := by
  rw [encode_eq, layout, List.append_assoc, decode_tag_append_ok]
  exact ⟨h.stored, [], by simp [layout]⟩

/-- Two kernels of one name: a normalized surface, and a texture whose binding is longer in
    bytes than in characters. -/
theorem decode_encode_surface :
    decode (encode
      [⟨"blur", [⟨"out", .surface, 2, .normalized⟩, ⟨"größe", .texture, 3, .normalized⟩]⟩,
        ⟨"blur", []⟩])
      = .ok
        [⟨"blur", [⟨"out", .surface, 2, .raw⟩, ⟨"größe", .texture, 3, .normalized⟩]⟩,
          ⟨"blur", []⟩] := by
  refine decode_encode ⟨by decide, ?_⟩
  intro kernel hkernel
  simp only [List.mem_cons, List.not_mem_nil, or_false] at hkernel
  obtain rfl | rfl := hkernel
  · exact ⟨by decide, by decide, by decide⟩
  · exact ⟨by decide, by decide, by decide⟩

end BindingTable

end KernelPrep
