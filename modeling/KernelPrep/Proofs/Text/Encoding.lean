/-
  KernelPrep.Proofs.Text.Encoding — texts and their bytes.

  The scanner moves over bytes and knows nothing of characters.  It may stop inside of one
  on its way, but what it cuts off begins and ends next to an ASCII byte, and there a text
  can be cut: no byte of a longer character is ASCII.

  Main statements:
    * `Text.bytes_append`, `Text.bytes_inj` — the bytes of a text;
    * `Text.exists_cut`   — a text can be cut next to an ASCII byte;
    * `Text.slice_append` — a piece by its offsets.
-/
import Mathlib.Data.List.Basic
import KernelPrep.Text.Slice

namespace KernelPrep.Text

/-! ## §1. Bytes -/

/-- The bytes of a text are those of its characters. -/
theorem bytes_eq (text : String) : bytes text = text.toList.flatMap String.utf8EncodeChar := by
  unfold bytes
  rw [String.toUTF8_eq_toByteArray, ← String.utf8Encode_toList]
  exact List.toList_data_toByteArray

/-- The bytes of one text behind another. -/
theorem bytes_append (a b : String) : bytes (a ++ b) = bytes a ++ bytes b := by
  rw [bytes_eq, bytes_eq, bytes_eq, String.toList_append, List.flatMap_append]

/-- A text is known by its bytes. -/
theorem bytes_inj {a b : String} : bytes a = bytes b ↔ a = b := by
  unfold bytes
  rw [Array.toList_inj, ← ByteArray.ext_iff, String.toUTF8_eq_toByteArray,
    String.toUTF8_eq_toByteArray, String.toByteArray_inj]

/-- A text is as long as it has bytes. -/
theorem length_bytes (text : String) : (bytes text).length = text.utf8ByteSize := by
  unfold bytes
  rw [Array.length_toList]
  rfl

@[simp] theorem bytes_empty : bytes "" = [] := rfl

/-- Only the empty text has no bytes. -/
theorem bytes_eq_nil {text : String} : bytes text = [] ↔ text = "" := by
  rw [← bytes_empty, bytes_inj]

/-! ## §2. Cutting a text -/

/-- The bytes that are characters on their own. -/
def isAscii (b : UInt8) : Bool := b < 0x80

/-- The bytes of a longer character are not ASCII. -/
theorem not_isAscii_of_add {n k : Nat} (h : 128 ≤ n + k) (hlt : n + k < 256) :
    isAscii (UInt8.ofNat (n + k)) = false := by
  unfold isAscii
  rw [decide_eq_false_iff_not, UInt8.lt_iff_toNat_lt, UInt8.toNat_ofNat']
  show ¬ (n + k) % 256 < 128
  omega

/-- A character is one ASCII byte, or none of its bytes is ASCII. -/
theorem encode_ascii (c : Char) :
    (∃ b, String.utf8EncodeChar c = [b])
      ∨ ∀ b ∈ String.utf8EncodeChar c, isAscii b = false := by
  unfold String.utf8EncodeChar
  dsimp only
  split
  · exact Or.inl ⟨_, rfl⟩
  -- two, three or four bytes, each of which has its highest bit set
  · refine Or.inr ?_
    split
    · simp only [List.forall_mem_cons]
      exact ⟨not_isAscii_of_add (by omega) (by omega), not_isAscii_of_add (by omega) (by omega),
        by simp⟩
    · split
      · simp only [List.forall_mem_cons]
        exact ⟨not_isAscii_of_add (by omega) (by omega),
          not_isAscii_of_add (by omega) (by omega), not_isAscii_of_add (by omega) (by omega),
          by simp⟩
      · simp only [List.forall_mem_cons]
        exact ⟨not_isAscii_of_add (by omega) (by omega),
          not_isAscii_of_add (by omega) (by omega), not_isAscii_of_add (by omega) (by omega),
          not_isAscii_of_add (by omega) (by omega), by simp⟩

/-- The place between two lists of bytes is at an end of them or next to an ASCII byte. -/
def Seam (a b : List UInt8) : Prop :=
  a = [] ∨ b = [] ∨ (∃ x, a.getLast? = some x ∧ isAscii x = true)
    ∨ ∃ x, b.head? = some x ∧ isAscii x = true

/-- Bytes of characters that are cut at a seam are cut between two characters. -/
theorem exists_cut_chars {cs : List Char} {a b : List UInt8}
    (h : cs.flatMap String.utf8EncodeChar = a ++ b) (hseam : Seam a b) :
    ∃ s t, cs = s ++ t ∧ s.flatMap String.utf8EncodeChar = a
      ∧ t.flatMap String.utf8EncodeChar = b := by
  induction cs generalizing a with
  | nil =>
    obtain ⟨rfl, rfl⟩ := List.nil_eq_append_iff.mp h
    exact ⟨[], [], rfl, rfl, rfl⟩
  | cons c cs ih =>
    rw [List.flatMap_cons] at h
    rcases List.append_eq_append_iff.mp h with ⟨a', rfl, hrest⟩ | ⟨b', hchar, rfl⟩
    · -- the character lies before the cut
      have hseam' : Seam a' b := by
        unfold Seam
        rcases hseam with hnil | hnil | ⟨x, hx, hascii⟩ | hhead
        · exact Or.inl (List.append_eq_nil_iff.mp hnil).2
        · exact Or.inr (Or.inl hnil)
        · cases a' with
          | nil => exact Or.inl rfl
          | cons y ys =>
            rw [List.getLast?_append_of_ne_nil _ (List.cons_ne_nil y ys)] at hx
            exact Or.inr (Or.inr (Or.inl ⟨x, hx, hascii⟩))
        · exact Or.inr (Or.inr (Or.inr hhead))
      obtain ⟨s, t, rfl, hs, ht⟩ := ih hrest hseam'
      exact ⟨c :: s, t, rfl, by rw [List.flatMap_cons, hs], ht⟩
    · -- the cut is in the character, so at one of its ends
      cases a with
      | nil => exact ⟨[], c :: cs, rfl, rfl, by rw [List.flatMap_cons, hchar]; rfl⟩
      | cons x xs =>
        cases b' with
        | nil => exact ⟨[c], cs, rfl, by simpa using hchar, by simp⟩
        | cons y ys =>
          exfalso
          have hbytes : ∀ b ∈ String.utf8EncodeChar c, isAscii b = false := by
            rcases encode_ascii c with ⟨b, hone⟩ | hnone
            · rw [hone] at hchar
              have hlength := congrArg List.length hchar
              simp at hlength
            · exact hnone
          rw [hchar] at hbytes
          rcases hseam with hnil | hnil | ⟨z, hz, hascii⟩ | ⟨z, hz, hascii⟩
          · simp at hnil
          · simp at hnil
          · have hin := hbytes z (List.mem_append_left _ (List.mem_of_getLast? hz))
            simp [hin] at hascii
          · have hin := hbytes z (List.mem_append_right _ (List.mem_of_head? (l := y :: ys) hz))
            simp [hin] at hascii

/-- **A text can be cut** next to an ASCII byte. -/
theorem exists_cut {text : String} {a b : List UInt8} (h : bytes text = a ++ b)
    (hseam : Seam a b) : ∃ s t, text = s ++ t ∧ bytes s = a ∧ bytes t = b := by
  rw [bytes_eq] at h
  obtain ⟨s, t, hsplit, hs, ht⟩ := exists_cut_chars h hseam
  refine ⟨String.ofList s, String.ofList t, ?_, ?_, ?_⟩
  · rw [← String.ofList_append, ← hsplit, String.ofList_toList]
  · rw [bytes_eq, String.toList_ofList, hs]
  · rw [bytes_eq, String.toList_ofList, ht]

/-! ## §3. Pieces -/

/-- **A piece of a text**, by the offsets of its ends. -/
theorem slice_append (a b c : String) :
    slice (a ++ b ++ c) a.utf8ByteSize (a.utf8ByteSize + b.utf8ByteSize) = b := by
  -- both offsets are lengths of whole texts, so the bytes between are those of `b`
  have hpiece : (a ++ b ++ c).toUTF8.extract a.utf8ByteSize (a.utf8ByteSize + b.utf8ByteSize)
      = b.toByteArray := by
    refine ByteArray.ext (Array.toList_inj.mp ?_)
    rw [ByteArray.data_extract, Array.toList_extract, List.extract]
    have hbytes : (a ++ b ++ c).toUTF8.data.toList = bytes a ++ bytes b ++ bytes c := by
      rw [← bytes_append, ← bytes_append]
      rfl
    rw [hbytes, ← length_bytes, ← length_bytes, Nat.add_sub_cancel_left, List.append_assoc,
      List.drop_left, List.take_left]
    rfl
  unfold slice
  dsimp only
  rw [if_pos, hpiece]
  · unfold String.fromUTF8?
    rw [dif_pos b.isValidUTF8]
    rfl
  · refine ⟨Nat.le_add_right _ _, ?_⟩
    show _ ≤ (a ++ b ++ c).utf8ByteSize
    rw [String.utf8ByteSize_append, String.utf8ByteSize_append]
    exact Nat.le_add_right _ _

/-- A piece of a text that stands behind another one. -/
theorem slice_shift (a b : String) (i j : Nat) :
    slice (a ++ b) (a.utf8ByteSize + i) (a.utf8ByteSize + j) = slice b i j := by
  have hpiece : (a ++ b).toUTF8.extract (a.utf8ByteSize + i) (a.utf8ByteSize + j)
      = b.toUTF8.extract i j := by
    refine ByteArray.ext (Array.toList_inj.mp ?_)
    rw [ByteArray.data_extract, ByteArray.data_extract, Array.toList_extract,
      Array.toList_extract, List.extract, List.extract]
    have hbytes : (a ++ b).toUTF8.data.toList = bytes a ++ bytes b := bytes_append a b
    rw [hbytes, ← length_bytes, List.drop_length_add_append, Nat.add_sub_add_left]
    rfl
  have hsize : (a ++ b).toUTF8.size = a.utf8ByteSize + b.toUTF8.size :=
    String.utf8ByteSize_append
  unfold slice
  dsimp only
  simp only [hpiece, hsize, Nat.add_le_add_iff_left]

/-- A character of a text that stands behind another one. -/
theorem charAt?_shift (a b : String) (i : Nat) :
    charAt? (a ++ b) (a.utf8ByteSize + i) = charAt? b i := by
  unfold charAt?
  rw [String.utf8ByteSize_append, slice_shift]

/-! ## §4. Lines -/

/-- The line feeds of one text behind another. -/
theorem lineFeeds_append (a b : String) : lineFeeds (a ++ b) = lineFeeds a + lineFeeds b := by
  unfold lineFeeds
  rw [String.toList_append, List.count_append]

end KernelPrep.Text
