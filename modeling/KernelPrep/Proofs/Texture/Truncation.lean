/-
  KernelPrep.Proofs.Texture.Truncation — tables that end early.

  A table that was cut off must not pass for a smaller one.  Every reader asks for all bytes of
  the layout that it reads, and asks for them before it looks at what they say: where they end
  early, that is what it reports, be it inside of a count, of a name or of a character of one.
  A series of readers has this from its members, since those before the cut read what was
  written and so go on to the one that is cut.

  Main definition:
    * `BindingTable.Needs` — a reader that needs every byte.

  Main statements:
    * `BindingTable.Needs.append`  — one reader behind another;
    * `BindingTable.decode_prefix` — what is said of a table that ends early.
-/
import KernelPrep.Proofs.Texture.Codec

namespace KernelPrep.BindingTable

variable {α β : Type}

/-! ## §1. Readers that need every byte -/

/-- The reader needs every one of the bytes: wherever they end early, that is its answer. -/
def Needs (step : Decoding α) (bytes : List UInt8) : Prop :=
  ∀ cut < bytes.length, step (bytes.take cut) = .error .truncated

theorem needs_nil (step : Decoding α) : Needs step [] := fun _ h => absurd h (Nat.not_lt_zero _)

/-- So many bytes are needed as are taken. -/
theorem needs_take (bytes : List UInt8) : Needs (take bytes.length) bytes := by
  intro cut hcut
  unfold take
  rw [if_pos (by rw [List.length_take]; omega)]

/-- What the first of two steps needs, both need. -/
theorem Needs.bind {first : Decoding α} {bytes : List UInt8} (h : Needs first bytes)
    (next : α → Decoding β) : Needs (first >>= next) bytes := by
  intro cut hcut
  show (first (bytes.take cut) >>= fun read => next read.1 read.2) = _
  rw [h cut hcut]
  rfl

/-- **One reader behind another** needs the layout of what the first one reads, and behind it
    what the second one needs. -/
theorem Needs.append {first : Decoding α} {next : α → Decoding β} {fits : α → Prop}
    {layout : α → List UInt8} {a : α} {more : List UInt8} (hexact : Exact first fits layout)
    (hfirst : Needs first (layout a)) (ha : fits a) (hnext : Needs (next a) more) :
    Needs (first >>= next) (layout a ++ more) := by
  intro cut hcut
  rw [List.length_append] at hcut
  by_cases hin : cut < (layout a).length
  · rw [List.take_append_of_le_length (Nat.le_of_lt hin)]
    exact hfirst.bind next cut hin
  · -- the first one reads what was written and leaves the cut to the second
    have hread : first (layout a ++ more.take (cut - (layout a).length))
        = .ok (a, more.take (cut - (layout a).length)) := (hexact _ _ _).mpr ⟨ha, rfl⟩
    rw [List.take_append, List.take_of_length_le (Nat.le_of_not_lt hin)]
    show (first _ >>= fun read => next read.1 read.2) = _
    rw [hread]
    exact hnext _ (by omega)

/-! ## §2. The readers of a table -/

/-- One byte is needed. -/
theorem needs_decodeByte (b : UInt8) : Needs decodeByte [b] := (needs_take [b]).bind _

/-- All bytes of a number are needed. -/
theorem needs_decodeCount (n : Nat) : Needs decodeCount (encodeCount n) :=
  (needs_take (encodeCount n)).bind _

/-- The length of a text and all its bytes are needed. -/
theorem needs_decodeText {text : String} (h : (Text.bytes text).length < 2 ^ 32) :
    Needs decodeText (encodeText text) :=
  .append exact_decodeCount (needs_decodeCount _) h ((needs_take (Text.bytes text)).bind _)

/-- All bytes of a parameter are needed. -/
theorem needs_decodeParam {param : BoundParam} (h : (Text.bytes param.binding).length < 2 ^ 32) :
    Needs decodeParam (layoutParam param) :=
  .append exact_decodeText (needs_decodeText h) h <|
    .append exact_decodeKind ((needs_decodeByte param.kind.tag).bind _) trivial <|
      .append exact_decodeByte (needs_decodeByte param.dims) trivial <|
        ((needs_decodeByte param.mode.tag).bind _).bind _

/-- **Entries one behind the other** need what each of them needs. -/
theorem needs_decodeMany {entry : Decoding α} {fits : α → Prop} {layout : α → List UInt8}
    (hexact : Exact entry fits layout) (hneeds : ∀ a, fits a → Needs entry (layout a))
    {items : List α} (hitems : ∀ a ∈ items, fits a) :
    Needs (decodeMany entry items.length) (items.flatMap layout) := by
  induction items with
  | nil => exact needs_nil _
  | cons a items ih =>
    obtain ⟨ha, hmore⟩ := List.forall_mem_cons.mp hitems
    rw [List.flatMap_cons]
    exact .append hexact (hneeds a ha) ha ((ih hmore).bind _)

/-- All bytes of a kernel are needed. -/
theorem needs_decodeKernel {kernel : KernelTextures} (h : FitsKernel kernel) :
    Needs decodeKernel (layoutKernel kernel) := by
  unfold layoutKernel
  rw [List.append_assoc]
  refine .append exact_decodeText (needs_decodeText h.name) h.name ?_
  refine .append exact_decodeCount (needs_decodeCount _) h.count ?_
  exact (needs_decodeMany exact_decodeParam (fun _ => needs_decodeParam) h.params).bind _

/-- All bytes of a row of kernels are needed. -/
theorem needs_decodeKernels {kernels : List KernelTextures} (h : Fits kernels) :
    Needs decodeKernels (encodeCount kernels.length ++ kernels.flatMap layoutKernel) :=
  .append exact_decodeCount (needs_decodeCount _) h.count
    (needs_decodeMany exact_decodeKernel (fun _ => needs_decodeKernel) h.kernels)

/-! ## §3. Tables that were cut off -/

/-- **A table that ends early is refused**, wherever it was cut off: without its whole tag it has
    none, and with it, it ends early. -/
theorem decode_prefix {kernels : List KernelTextures} (h : Fits kernels) {front : List UInt8}
    (hfront : front <+: encode kernels) (hne : front ≠ encode kernels) :
    decode front = .error (if front.length < 8 then .badTag else .truncated) := by
  have hshort : front.length < (encode kernels).length :=
    Nat.lt_of_le_of_ne hfront.length_le fun heq => hne (hfront.eq_of_length heq)
  have hcut : front = (encode kernels).take front.length := List.prefix_iff_eq_take.mp hfront
  have htag : tag.length = 8 := rfl
  split
  · rename_i hlt
    refine decode_badTag fun htake => ?_
    have hlength := congrArg List.length htake
    rw [List.length_take] at hlength
    omega
  · rename_i hge
    rw [encode_eq, layout, List.append_assoc] at hshort hcut
    rw [List.take_append, List.take_of_length_le (by omega)] at hcut
    rw [List.length_append] at hshort
    rw [hcut, decode_tag_append, needs_decodeKernels h.stored _ (by omega)]
    rfl

/-- Two kernels of one name, the table cut off within a character of the second binding. -/
theorem decode_prefix_character :
    Text.bytes "KPPTEX01" ++ [2, 0, 0, 0] ++ [4, 0, 0, 0] ++ Text.bytes "blur" ++ [2, 0, 0, 0]
        ++ [3, 0, 0, 0] ++ Text.bytes "out" ++ [1, 2, 0x75] ++ [7, 0, 0, 0, 0x67, 0x72, 0xC3]
      <+: encode
        [⟨"blur", [⟨"out", .surface, 2, .normalized⟩, ⟨"größe", .texture, 3, .raw⟩]⟩,
          ⟨"blur", []⟩]
    ∧ decode (Text.bytes "KPPTEX01" ++ [2, 0, 0, 0] ++ [4, 0, 0, 0] ++ Text.bytes "blur"
        ++ [2, 0, 0, 0] ++ [3, 0, 0, 0] ++ Text.bytes "out" ++ [1, 2, 0x75]
        ++ [7, 0, 0, 0, 0x67, 0x72, 0xC3]) = .error .truncated := by
  have hfits : Fits
      [⟨"blur", [⟨"out", .surface, 2, .normalized⟩, ⟨"größe", .texture, 3, .raw⟩]⟩,
        ⟨"blur", []⟩] := by
    refine ⟨by decide, ?_⟩
    intro kernel hkernel
    simp only [List.mem_cons, List.not_mem_nil, or_false] at hkernel
    obtain rfl | rfl := hkernel
    · exact ⟨by decide, by decide, by decide⟩
    · exact ⟨by decide, by decide, by decide⟩
  refine ⟨?front, decode_prefix hfits ?front (by decide)⟩
  exact List.prefix_iff_eq_take.mpr (by decide)

end KernelPrep.BindingTable
