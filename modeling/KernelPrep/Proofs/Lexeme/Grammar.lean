/-
  KernelPrep.Proofs.Lexeme.Grammar — the lexical grammar.

  The grammar is said here by the places of the bytes ahead, apart from the functions that cut
  a source: what byte a lexeme starts with, and which place is the first that does not belong to
  it.  Most classes are longest runs.  In a quoted run it matters which bytes are escaped, and
  that is a property of a place, not of a way through the bytes: the byte behind a backslash is
  escaped unless the backslash is, and a line feed shares the escape of the carriage return
  before it.

  Main definitions:
    * `Lexeme.Grammar.Escaped` — a byte that a backslash escapes;
    * `Lexeme.Grammar.Token`   — the lexeme at the head of some bytes, class by class;
    * `Lexeme.Grammar.Tokens`  — a source as lexemes one behind the other.

  Main statements:
    * `Lexeme.Grammar.token_of_munch`, `Lexeme.Grammar.Token.munch_eq` — what is cut off is the
      lexeme of the grammar, and the grammar has no other;
    * `Lexeme.next?_grammar` — calls and whole scans answer with the lexemes of the grammar.
-/
import Mathlib.Order.Bounds.Basic
import KernelPrep.Proofs.Lexeme.Turns

namespace KernelPrep.Lexeme

namespace Grammar

/-! ## §1. Bytes and places -/

/-- An ASCII letter, or an underscore. -/
def Letter (b : UInt8) : Prop :=
  ('a'.toUInt8 ≤ b ∧ b ≤ 'z'.toUInt8) ∨ ('A'.toUInt8 ≤ b ∧ b ≤ 'Z'.toUInt8) ∨ b = '_'.toUInt8

/-- An ASCII digit. -/
def Digit (b : UInt8) : Prop := '0'.toUInt8 ≤ b ∧ b ≤ '9'.toUInt8

/-- The byte belongs to a blank run: a space, a tab, a vertical tab, a form feed, or a carriage
    return that no line feed follows. -/
def Blank (s : List UInt8) (i : Nat) : Prop :=
  ∃ b, s[i]? = some b ∧ (b ∈ Text.bytes " \t\x0b\x0c" ∨ b = cr ∧ s[i + 1]? ≠ some lf)

/-- The byte belongs to an identifier: a letter, or behind the first one also a digit. -/
def Word (s : List UInt8) (i : Nat) : Prop :=
  ∃ b, s[i]? = some b ∧ (Letter b ∨ 0 < i ∧ Digit b)

/-- What is ahead begins with a digit, or with a dot before a digit. -/
def OpensNumber (s : List UInt8) : Prop :=
  (∃ b, s[0]? = some b ∧ Digit b)
    ∨ s[0]? = some '.'.toUInt8 ∧ ∃ b, s[1]? = some b ∧ Digit b

/-- What is ahead begins as a hexadecimal number. -/
def Hexadecimal (s : List UInt8) : Prop := Text.bytes "0x" <+: s ∨ Text.bytes "0X" <+: s

/-- The letters that a signed exponent may follow: in a hexadecimal number `e` is a digit. -/
def Exponent (s : List UInt8) (b : UInt8) : Prop :=
  b ∈ Text.bytes "pP" ∨ ¬ Hexadecimal s ∧ b ∈ Text.bytes "eE"

/-- The byte belongs to a number: a letter, a digit, a dot, or a sign directly behind the letter
    of an exponent. -/
def Numeral (s : List UInt8) : Nat → Prop
  | 0 => OpensNumber s
  | i + 1 => ∃ b, s[i + 1]? = some b ∧ (Letter b ∨ Digit b ∨ b = '.'.toUInt8
      ∨ b ∈ Text.bytes "+-" ∧ ∃ e, s[i]? = some e ∧ Exponent s e)

/-- The place is escaped: it is behind a backslash that is not, or it is the second byte of a
    line end whose first byte is escaped. -/
def Escaped (s : List UInt8) : Nat → Prop
  | 0 => False
  | i + 1 => s[i]? = some backslash ∧ ¬ Escaped s i
      ∨ s[i]? = some cr ∧ s[i + 1]? = some lf ∧ Escaped s i

/-- A quoted run ends here: at the end of the source, or at a quote, a carriage return or a line
    feed that is not escaped. -/
def EndsRun (quote : UInt8) (s : List UInt8) (i : Nat) : Prop :=
  s.length ≤ i ∨ ∃ b, s[i]? = some b ∧ b ∈ [quote, cr, lf] ∧ ¬ Escaped s i

/-- The operators of two characters. -/
def doubles : List String :=
  ["<=", ">=", "==", "!=", "<<", ">>", "++", "--", "->", "&&", "||", "+=", "-=", "*=", "/=", "%=",
    "&=", "|=", "^=", "::", "##"]

/-- The characters that are operators on their own. -/
def operators : String := "()[]\x7b\x7d<>,;:.+-*/%=!~&|^?#\\"

/-! ## §2. The grammar -/

/-- The lexeme at the head of the bytes, by its class and its length. -/
inductive Token (s : List UInt8) : Tag → Nat → Prop where
  | whitespace {n : Nat} : Blank s 0 → IsLeast {i | ¬ Blank s i} n → Token s .whitespace n
  | lineFeed : s[0]? = some lf → Token s .newline 1
  | carriageReturn : s[0]? = some cr → s[1]? = some lf → Token s .newline 2
  | lineComment {n : Nat} : Text.bytes "//" <+: s →
      IsLeast {i | 2 ≤ i ∧ (s.length ≤ i ∨ s[i]? = some lf)} n → Token s .lineComment n
  | blockComment {i : Nat} : Text.bytes "/*" <+: s →
      IsLeast {i | 2 ≤ i ∧ Text.bytes "*/" <+: s.drop i} i → Token s .blockComment (i + 2)
  | unterminatedComment : Text.bytes "/*" <+: s →
      (∀ i, 2 ≤ i → ¬ Text.bytes "*/" <+: s.drop i) → Token s .unterminatedComment s.length
  | ident {n : Nat} : Word s 0 → IsLeast {i | ¬ Word s i} n → Token s .ident n
  | number {n : Nat} : Numeral s 0 → IsLeast {i | ¬ Numeral s i} n → Token s .number n
  | string {quote : UInt8} {i : Nat} : s[0]? = some quote → quote ∈ Text.bytes "\"'" →
      IsLeast {i | 1 ≤ i ∧ EndsRun quote s i} i → s[i]? = some quote → Token s .string (i + 1)
  | unterminatedString {quote : UInt8} {i : Nat} : s[0]? = some quote →
      quote ∈ Text.bytes "\"'" → IsLeast {i | 1 ≤ i ∧ EndsRun quote s i} i →
      s[i]? ≠ some quote → Token s .unterminatedString i
  | pair {a b : UInt8} : s[0]? = some a → s[1]? = some b → [a, b] ∈ doubles.map Text.bytes →
      Token s (.pair a b) 2
  | single {b : UInt8} : s[0]? = some b → b ∈ Text.bytes operators →
      (∀ text ∈ "//" :: "/*" :: doubles, ¬ Text.bytes text <+: s) → ¬ OpensNumber s →
      Token s (.single b) 1
  | interiorNull : s[0]? = some 0 → Token s .interiorNull 1
  | invalidByte {b : UInt8} : s[0]? = some b → b ≠ 0 → b ∉ Text.bytes " \t\x0b\x0c\r\n\"'" →
      ¬ Letter b → ¬ Digit b → b ∉ Text.bytes operators → Token s (.invalidByte b) 1

/-- A source from the given offset on, as lexemes one behind the other. -/
inductive Tokens : Nat → List UInt8 → List (Nat × Lexeme) → Prop where
  | nil {offset : Nat} : Tokens offset [] []
  | cons {offset : Nat} {s : List UInt8} {lexeme : Lexeme} {rest : List (Nat × Lexeme)} :
      Token s lexeme.tag lexeme.length →
      Tokens (offset + lexeme.length) (s.drop lexeme.length) rest →
      Tokens offset s ((offset, lexeme) :: rest)

/-! ## §3. Classes of bytes -/

section Bytes

variable {b : UInt8} {rest : List UInt8}

/-- Letters are what an identifier can begin with. -/
theorem letter_iff : Letter b ↔ isIdentStart b = true := by
  have ha : 'a'.toUInt8 = 0x61 ∧ 'z'.toUInt8 = 0x7A ∧ 'A'.toUInt8 = 0x41 ∧ 'Z'.toUInt8 = 0x5A
      ∧ '_'.toUInt8 = 0x5F := by decide
  simp only [Letter, isIdentStart, ha, Bool.or_eq_true, Bool.and_eq_true, decide_eq_true_eq,
    beq_iff_eq, or_assoc]

/-- Digits, as the scanner tests for them. -/
theorem digit_iff : Digit b ↔ isDigit b = true := by
  have h0 : '0'.toUInt8 = 0x30 ∧ '9'.toUInt8 = 0x39 := by decide
  simp only [Digit, isDigit, h0, Bool.and_eq_true, decide_eq_true_eq]

/-- An identifier goes on with letters and digits. -/
theorem part_iff : isIdentPart b = true ↔ Letter b ∨ Digit b := by
  rw [letter_iff, digit_iff, isIdentPart, Bool.or_eq_true]

/-- The bytes that are blank wherever they stand. -/
theorem space_iff : b ∈ Text.bytes " \t\x0b\x0c" ↔ isSpace b = true := by
  have hbytes : Text.bytes " \t\x0b\x0c" = [0x20, 0x09, 0x0B, 0x0C] := by decide
  simp [hbytes, isSpace, or_assoc]

/-- The two quotes. -/
theorem quote_iff : b ∈ Text.bytes "\"'" ↔ b = 0x22 ∨ b = 0x27 := by
  have hbytes : Text.bytes "\"'" = [0x22, 0x27] := by decide
  simp [hbytes]

/-- A byte that begins neither a blank run, a line end nor a quoted run. -/
theorem plain_iff : b ∉ Text.bytes " \t\x0b\x0c\r\n\"'"
    ↔ isSpace b = false ∧ b ≠ cr ∧ b ≠ lf ∧ ¬ (b = 0x22 ∨ b = 0x27) := by
  have hbytes : Text.bytes " \t\x0b\x0c\r\n\"'"
      = Text.bytes " \t\x0b\x0c" ++ cr :: lf :: Text.bytes "\"'" := by decide
  rw [hbytes, List.mem_append, List.mem_cons, List.mem_cons, space_iff, quote_iff]
  simp only [not_or, Bool.not_eq_true]

/-- The operators of one character, as bytes. -/
theorem bytes_operators : Text.bytes operators = singles := by decide

/-- The operators of two characters, as bytes. -/
theorem bytes_doubles : doubles.map Text.bytes = pairs.map fun p => [p.1, p.2] := by decide

/-- Two bytes make an operator if and only if they are a pair of the scanner's. -/
theorem double_iff {a : UInt8} : [a, b] ∈ doubles.map Text.bytes ↔ (a, b) ∈ pairs := by
  simp [bytes_doubles]

/-- A byte that is looked for behind another, where the end of the source reads as zero. -/
theorem headD_eq_iff (hb : b ≠ 0) : rest.headD 0 = b ↔ rest[0]? = some b := by
  cases rest with
  | nil => simp [Ne.symm hb]
  | cons c rest => simp

/-- Two bytes stand at the head of a text if its first two bytes are these. -/
theorem prefix_two {a : UInt8} {c : UInt8} :
    [a, b] <+: c :: rest ↔ c = a ∧ rest[0]? = some b := by
  cases rest with
  | nil => simp [List.cons_prefix_cons]
  | cons d rest => simp [List.cons_prefix_cons, eq_comm]

end Bytes

/-! ## §4. Longest runs -/

section Runs

variable {Q : Nat → Prop} {s rest : List UInt8} {b : UInt8} {n k : Nat}

/-- The first place is the least where something holds if it holds there. -/
theorem isLeast_zero (h : Q 0) : IsLeast {i | Q i} 0 := ⟨h, fun _ _ => Nat.zero_le _⟩

/-- The first place behind `k` others that are none. -/
theorem isLeast_add (hlow : ∀ i < k, ¬ Q i) (h : IsLeast {i | Q (i + k)} n) :
    IsLeast {i | Q i} (n + k) := by
  refine ⟨h.1, fun i hi => ?_⟩
  have hk : k ≤ i := Nat.le_of_not_lt fun hlt => hlow i hlt hi
  have hle : n ≤ i - k := h.2 (show Q (i - k + k) by rwa [Nat.sub_add_cancel hk])
  omega

/-- The least place, when the first is not it. -/
theorem isLeast_succ (hfirst : ¬ Q 0) (h : IsLeast {i | Q (i + 1)} n) :
    IsLeast {i | Q i} (n + 1) :=
  isLeast_add (fun i hi => by rwa [Nat.lt_one_iff.mp hi]) h

/-- A run of bytes of one class. -/
theorem takeWhile_isLeast (p : UInt8 → Bool) (s : List UInt8) :
    IsLeast {i | ¬ ∃ b, s[i]? = some b ∧ p b = true} (s.takeWhile p).length := by
  induction s with
  | nil => exact isLeast_zero (by simp)
  | cons b rest ih =>
    rw [List.takeWhile_cons]
    split
    · rename_i hp
      exact isLeast_succ (by simpa using hp) ih
    · rename_i hp
      exact isLeast_zero (by simpa using hp)

/-- Whether the first byte belongs to a blank run. -/
theorem blank_zero_iff :
    Blank (b :: rest) 0 ↔ (isSpace b || (b == cr && rest.headD 0 != lf)) = true := by
  have hlf : rest.headD 0 = lf ↔ rest[0]? = some lf := headD_eq_iff (by decide)
  simp [Blank, space_iff, ← hlf]

/-- A blank run goes as far as bytes belong to it. -/
theorem blank_isLeast (s : List UInt8) : IsLeast {i | ¬ Blank s i} (blankLength s) := by
  induction s with
  | nil => exact isLeast_zero (by simp [Blank])
  | cons b rest ih =>
    rw [blankLength]
    split
    · rename_i hb
      exact isLeast_succ (not_not.mpr (blank_zero_iff.mpr hb)) ih
    · rename_i hb
      exact isLeast_zero (mt blank_zero_iff.mp hb)

/-- An identifier goes as far as bytes belong to it. -/
theorem word_isLeast (hb : Letter b) (rest : List UInt8) :
    IsLeast {i | ¬ Word (b :: rest) i} (1 + (rest.takeWhile isIdentPart).length) := by
  rw [Nat.add_comm]
  refine isLeast_succ (not_not.mpr ⟨b, rfl, .inl hb⟩) ?_
  have hpart : ∀ i, Word (b :: rest) (i + 1) ↔ ∃ c, rest[i]? = some c ∧ isIdentPart c = true := by
    intro i
    simp [Word, part_iff]
  simp only [hpart]
  exact takeWhile_isLeast isIdentPart rest

/-- A line comment goes up to the line feed. -/
theorem line_isLeast (rest : List UInt8) :
    IsLeast {i | rest.length ≤ i ∨ rest[i]? = some lf}
      ((rest.findIdx? (· == lf)).getD rest.length) := by
  rw [lineLength_eq]
  have hline : ∀ i, (rest.length ≤ i ∨ rest[i]? = some lf)
      ↔ ¬ ∃ b, rest[i]? = some b ∧ (b != lf) = true := by
    intro i
    rw [← List.getElem?_eq_none_iff]
    cases rest[i]? <;> simp
  simp only [hline]
  exact takeWhile_isLeast (· != lf) rest

/-- A number goes on by the byte and the one before it. -/
theorem goesOn_iff {before : UInt8} (hex : Bool) (hhex : Hexadecimal s ↔ hex = true) :
    goesOn hex before b = true ↔ Letter b ∨ Digit b ∨ b = '.'.toUInt8
      ∨ b ∈ Text.bytes "+-" ∧ Exponent s before := by
  have hbytes : Text.bytes "+-" = [0x2B, 0x2D] ∧ Text.bytes "pP" = [0x70, 0x50]
      ∧ Text.bytes "eE" = [0x65, 0x45] ∧ '.'.toUInt8 = 0x2E := by decide
  rw [goesOn, Bool.or_eq_true, Bool.or_eq_true, part_iff]
  cases hex <;> simp [Exponent, hhex, hbytes, isExponentSign, or_assoc]

/-- Behind its first byte, a number goes as far as bytes belong to it. -/
theorem number_isLeast (hex : Bool) (before : UInt8) (rest : List UInt8) :
    IsLeast {i | ¬ ∃ b, rest[i]? = some b
        ∧ ∃ e, (before :: rest)[i]? = some e ∧ goesOn hex e b = true}
      (numberLength hex before rest) := by
  induction rest generalizing before with
  | nil => exact isLeast_zero (by simp)
  | cons b rest ih =>
    rw [numberLength_cons]
    split
    · rename_i hgo
      exact isLeast_succ (by simpa using hgo) (ih b)
    · rename_i hgo
      exact isLeast_zero (by simpa using hgo)

/-- A hexadecimal number shows by its first two bytes. -/
theorem hexadecimal_iff : Hexadecimal (b :: rest) ↔ isHex b (rest.headD 0) = true := by
  have hbytes : Text.bytes "0x" = [0x30, 0x78] ∧ Text.bytes "0X" = [0x30, 0x58] := by decide
  have hx : rest.headD 0 = 0x78 ↔ rest[0]? = some 0x78 := headD_eq_iff (by decide)
  have hX : rest.headD 0 = 0x58 ↔ rest[0]? = some 0x58 := headD_eq_iff (by decide)
  simp only [Hexadecimal, hbytes, prefix_two, isHex, Bool.and_eq_true, Bool.or_eq_true,
    beq_iff_eq, hx, hX, and_or_left]

/-- A number goes as far as bytes belong to it. -/
theorem numeral_isLeast (h : OpensNumber (b :: rest)) :
    IsLeast {i | ¬ Numeral (b :: rest) i} (munchNumber b rest).length := by
  unfold munchNumber
  rw [Nat.add_comm]
  refine isLeast_succ (not_not.mpr h) ?_
  have hgo : ∀ i, Numeral (b :: rest) (i + 1) ↔ ∃ c, rest[i]? = some c
      ∧ ∃ e, (b :: rest)[i]? = some e ∧ goesOn (isHex b (rest.headD 0)) e c = true := by
    intro i
    refine exists_congr fun c => and_congr_right fun hc => ?_
    -- there is a byte before it
    have hlt : i < (b :: rest).length :=
      Nat.lt_of_succ_lt (List.getElem?_eq_some_iff.mp hc).1
    simp only [List.getElem?_eq_getElem hlt, Option.some.injEq, exists_eq_left',
      goesOn_iff _ hexadecimal_iff]
  simp only [hgo]
  exact number_isLeast _ b rest

/-- Whether a comment ends with the first two bytes. -/
theorem comment_zero_iff {c : UInt8} :
    Text.bytes "*/" <+: (b :: c :: rest).drop 0 ↔ b = 0x2A ∧ c = 0x2F := by
  have hbytes : Text.bytes "*/" = [0x2A, 0x2F] := by decide
  simp [hbytes, eq_comm]

/-- A block comment is closed by the first `*/`. -/
theorem comment_isLeast (h : commentEnd? s = some n) :
    ∃ i, n = i + 2 ∧ IsLeast {i | Text.bytes "*/" <+: s.drop i} i := by
  induction s using commentEnd?.induct generalizing n with
  | case1 => simp [commentEnd?] at h
  | case2 => simp [commentEnd?] at h
  | case3 b c rest hclose =>
    rw [commentEnd?, if_pos hclose] at h
    exact ⟨0, (Option.some.inj h).symm, isLeast_zero (comment_zero_iff.mpr hclose)⟩
  | case4 b c rest hclose ih =>
    rw [commentEnd?, if_neg hclose] at h
    obtain ⟨m, hm, rfl⟩ := Option.map_eq_some_iff.mp h
    obtain ⟨i, rfl, hleast⟩ := ih hm
    exact ⟨i + 1, by omega, isLeast_succ (mt comment_zero_iff.mp hclose) hleast⟩

/-- Where no end of a comment is found there is none. -/
theorem comment_open (h : commentEnd? s = none) (i : Nat) :
    ¬ Text.bytes "*/" <+: s.drop i := by
  have hbytes : (Text.bytes "*/").length = 2 := by decide
  -- what is shorter than two bytes does not begin with them
  have hshort : ∀ {t : List UInt8}, t.length < 2 → ∀ i, ¬ Text.bytes "*/" <+: t.drop i := by
    intro t ht i hpre
    have hle := hpre.length_le
    rw [hbytes, List.length_drop] at hle
    omega
  induction s using commentEnd?.induct generalizing i with
  | case1 => exact hshort (by simp) i
  | case2 => exact hshort (by simp) i
  | case3 b c rest hclose => simp [commentEnd?, hclose] at h
  | case4 b c rest hclose ih =>
    rw [commentEnd?, if_neg hclose, Option.map_eq_none_iff] at h
    cases i with
    | zero => exact mt comment_zero_iff.mp hclose
    | succ i => exact ih h i

end Runs

/-! ## §5. Quoted runs -/

section Quotes

variable {s : List UInt8} {quote b : UInt8} {i k n : Nat}

/-- Behind a place that is not escaped, escapes are told without what is before it. -/
theorem escaped_drop (h : ¬ Escaped s k) (i : Nat) : Escaped s (i + k) ↔ Escaped (s.drop k) i := by
  induction i with
  | zero => simpa [Escaped] using h
  | succ i ih =>
    rw [Nat.add_right_comm]
    simp only [Escaped, ih, List.getElem?_drop]
    rw [Nat.add_comm k i, ← Nat.add_assoc, Nat.add_comm k i, Nat.add_right_comm]

/-- Whether a quoted run ends at a place shows from the bytes behind an earlier one that is not
    escaped. -/
theorem endsRun_drop (h : ¬ Escaped s k) (hk : k ≤ s.length) (i : Nat) :
    EndsRun quote s (i + k) ↔ EndsRun quote (s.drop k) i := by
  unfold EndsRun
  rw [escaped_drop h, List.getElem?_drop, List.length_drop, Nat.add_comm k i]
  refine or_congr_left ?_
  omega

/-- The first end of a run, where the first `k` places are none. -/
theorem endsRun_isLeast (h : ¬ Escaped s k) (hk : k ≤ s.length)
    (hlow : ∀ i < k, ¬ EndsRun quote s i)
    (hleast : IsLeast {i | EndsRun quote (s.drop k) i} n) :
    IsLeast {i | EndsRun quote s i} (n + k) := by
  refine isLeast_add hlow ?_
  simpa only [endsRun_drop h hk] using hleast

/-- What follows an escape, or a byte that ends nothing, is not escaped. -/
theorem not_escaped_succ (h : s[i]? = some b) (hslash : b = backslash → Escaped s i)
    (hcr : b = cr → s[i + 1]? ≠ some lf ∨ ¬ Escaped s i) : ¬ Escaped s (i + 1) := by
  rintro (⟨hb, hnot⟩ | ⟨hb, hlf, hescaped⟩)
  · rw [h] at hb
    exact hnot (hslash (Option.some.inj hb))
  · rw [h] at hb
    exact (hcr (Option.some.inj hb)).elim (fun hne => hne hlf) fun hnot => hnot hescaped

/-- A byte that ends nothing, or is escaped, is no end. -/
theorem not_endsRun (h : s[i]? = some b) (hb : b ∉ [quote, cr, lf] ∨ Escaped s i) :
    ¬ EndsRun quote s i := by
  rintro (hle | ⟨c, hc, hends, hnot⟩)
  · exact absurd (List.getElem?_eq_some_iff.mp h).1 (Nat.not_lt.mpr hle)
  · rw [h] at hc
    obtain rfl := Option.some.inj hc
    exact hb.elim (fun hne => hne hends) hnot

/-- The byte behind a backslash that is not escaped. -/
theorem escaped_one (rest : List UInt8) : Escaped (backslash :: rest) 1 := .inl ⟨rfl, id⟩

/-- What is read of a quoted run that ends at the first place that can end it. -/
def runLength (quote : UInt8) (s : List UInt8) (i : Nat) : Nat × Bool :=
  if s[i]? = some quote then (i + 1, true) else (i, false)

/-- The first `k` places end nothing, and the next one is not escaped: so the run goes on as it
    would from there. -/
theorem quoted_step {closed : Bool} (hk : k ≤ s.length) (hescaped : ¬ Escaped s k)
    (hlow : ∀ i < k, ¬ EndsRun quote s i)
    (h : ∃ i, IsLeast {i | EndsRun quote (s.drop k) i} i
      ∧ (n, closed) = runLength quote (s.drop k) i) :
    ∃ i, IsLeast {i | EndsRun quote s i} i ∧ (n + k, closed) = runLength quote s i := by
  obtain ⟨i, hleast, hlength⟩ := h
  refine ⟨i + k, endsRun_isLeast hescaped hk hlow hleast, ?_⟩
  unfold runLength at hlength ⊢
  rw [List.getElem?_drop, Nat.add_comm k i] at hlength
  split at hlength
  · obtain ⟨rfl, rfl⟩ := Prod.mk.inj hlength
    rw [if_pos ‹_›, Nat.add_right_comm]
  · obtain ⟨rfl, rfl⟩ := Prod.mk.inj hlength
    rw [if_neg ‹_›]

/-- A backslash ends no run, and neither does the byte it escapes. -/
theorem not_endsRun_escape (hslash : backslash ∉ [quote, cr, lf]) {b : UInt8}
    {tail : List UInt8} : ∀ {i : Nat}, i < 2 → ¬ EndsRun quote (backslash :: b :: tail) i
  | 0, _ => not_endsRun rfl (.inl hslash)
  | 1, _ => not_endsRun rfl (.inr (escaped_one _))

/-- **A quoted run** behind its opening quote goes up to the first place that ends it. -/
theorem quoted_isLeast (hquote : quote ≠ backslash ∧ quote ≠ cr ∧ quote ≠ lf) (s : List UInt8) :
    ∃ i, IsLeast {i | EndsRun quote s i} i ∧ quotedLength quote s = runLength quote s i := by
  have hslash : backslash ∉ [quote, cr, lf] := by
    simp only [List.mem_cons, List.not_mem_nil, or_false, not_or]
    exact ⟨hquote.1.symm, by decide, by decide⟩
  fun_induction quotedLength quote s with
  | case1 => exact ⟨0, isLeast_zero (.inl (Nat.le_refl _)), rfl⟩
  | case2 =>
    -- the backslash has nothing to escape
    refine ⟨1, isLeast_succ (not_endsRun rfl (.inl hslash)) (isLeast_zero ?_), rfl⟩
    exact .inl (Nat.le_refl _)
  | case3 =>
    refine ⟨2, isLeast_add (k := 2) (fun _ => not_endsRun_escape hslash) (isLeast_zero ?_), rfl⟩
    exact .inl (Nat.le_refl _)
  | case4 tail n closed heq ih =>
    rw [heq] at ih
    have htwo : Escaped (backslash :: cr :: lf :: tail) 2 := .inr ⟨rfl, rfl, escaped_one _⟩
    refine quoted_step (k := 3) (by simp) ?_ ?_ ih
    · exact not_escaped_succ rfl (fun _ => htwo) (fun he => absurd he (by decide))
    · rintro (_ | _ | _ | i) hi
      · exact not_endsRun rfl (.inl hslash)
      · exact not_endsRun rfl (.inr (escaped_one _))
      · exact not_endsRun rfl (.inr htwo)
      · omega
  | case5 b tail hlf n closed heq ih =>
    rw [heq] at ih
    refine quoted_step (k := 2) (by simp) ?_ (fun _ => not_endsRun_escape hslash) ih
    refine not_escaped_succ rfl (fun he => absurd he (by decide)) (fun _ => .inl ?_)
    simpa using hlf
  | case6 b tail hcr n closed heq ih =>
    rw [heq] at ih
    refine quoted_step (k := 2) (by simp) ?_ (fun _ => not_endsRun_escape hslash) ih
    exact not_escaped_succ rfl (fun _ => escaped_one _) (fun he => absurd he hcr)
  | case7 b tail hnot hline =>
    have hne : b ≠ quote := by
      rintro rfl
      exact hline.elim hquote.2.2 hquote.2.1
    refine ⟨0, isLeast_zero (.inr ⟨b, rfl, ?_, id⟩), ?_⟩
    · rcases hline with rfl | rfl <;> simp
    · exact (if_neg (by simpa using hne)).symm
  | case8 tail =>
    refine ⟨0, isLeast_zero (.inr ⟨quote, rfl, List.mem_cons_self, id⟩), ?_⟩
    exact (if_pos rfl).symm
  | case9 b tail hnot hline hne n closed heq ih =>
    rw [heq] at ih
    obtain ⟨hlf, hcr⟩ := not_or.mp hline
    refine quoted_step (k := 1) (by simp) ?_ ?_ ih
    · exact not_escaped_succ rfl (fun he => absurd he hnot) (fun he => absurd he hcr)
    · intro i hi
      rw [Nat.lt_one_iff.mp hi]
      exact not_endsRun rfl (.inl (by simp [hne, hcr, hlf]))

end Quotes

/-! ## §6. What is cut off -/

section Cut

variable {s rest : List UInt8} {b : UInt8} {tag : Tag} {n : Nat}

/-- Whether the second byte is a digit. -/
theorem digit_behind_iff :
    (∃ c, rest[0]? = some c ∧ isDigit c = true) ↔ isDigit (rest.headD 0) = true := by
  cases rest with
  | nil => simp [isDigit]
  | cons c rest => simp

/-- A number begins with a digit, or with a dot before one. -/
theorem opensNumber_iff : OpensNumber (b :: rest)
    ↔ isDigit b = true ∨ b = 0x2E ∧ isDigit (rest.headD 0) = true := by
  have hdot : '.'.toUInt8 = 0x2E := by decide
  simp only [OpensNumber, List.getElem?_cons_zero, List.getElem?_cons_succ, Option.some.injEq,
    exists_eq_left', digit_iff, digit_behind_iff, hdot]

/-- The openers of comments, as bytes. -/
theorem bytes_comments : Text.bytes "//" = [0x2F, 0x2F] ∧ Text.bytes "/*" = [0x2F, 0x2A] := by
  decide

/-- An operator that stands alone begins neither a comment nor a pair. -/
theorem alone_iff : (∀ text ∈ "//" :: "/*" :: doubles, ¬ Text.bytes text <+: b :: rest)
    ↔ (b = 0x2F → rest.headD 0 ≠ 0x2F ∧ rest.headD 0 ≠ 0x2A) ∧ (b, rest.headD 0) ∉ pairs := by
  have hslash : rest.headD 0 = 0x2F ↔ rest[0]? = some 0x2F := headD_eq_iff (by decide)
  have hstar : rest.headD 0 = 0x2A ↔ rest[0]? = some 0x2A := headD_eq_iff (by decide)
  -- a byte missing behind reads as zero, which is no second half of a pair
  have hpairs : (∃ text ∈ doubles, Text.bytes text <+: b :: rest)
      ↔ (b, rest.headD 0) ∈ pairs := by
    have hmap : (∃ text ∈ doubles, Text.bytes text <+: b :: rest)
        ↔ ∃ pair ∈ doubles.map Text.bytes, pair <+: b :: rest := by simp
    rw [hmap, bytes_doubles]
    constructor
    · rintro ⟨_, hpair, hprefix⟩
      obtain ⟨⟨x, y⟩, hmem, rfl⟩ := List.mem_map.mp hpair
      obtain ⟨rfl, hy⟩ := prefix_two.mp hprefix
      rwa [(headD_eq_iff (pair_plain _ hmem).2.2.1).mpr hy]
    · intro hmem
      refine ⟨_, List.mem_map_of_mem hmem, prefix_two.mpr ⟨rfl, ?_⟩⟩
      exact (headD_eq_iff (pair_plain _ hmem).2.2.1).mp rfl
  rw [← hpairs]
  simp only [List.forall_mem_cons, bytes_comments, prefix_two]
  push Not
  tauto

/-- Where no other class begins, the lexeme is an operator or a byte of no class. -/
theorem token_of_operator (h : OpensOperator b)
    (hslash : b = 0x2F → rest.headD 0 ≠ 0x2F ∧ rest.headD 0 ≠ 0x2A)
    (hdot : b = 0x2E → isDigit (rest.headD 0) = false) :
    Token (b :: rest) (munchOperator b (rest.headD 0)).tag
      (munchOperator b (rest.headD 0)).length := by
  unfold munchOperator
  by_cases hpair : (b, rest.headD 0) ∈ pairs
  · rw [if_pos (by simpa using hpair)]
    exact .pair rfl ((headD_eq_iff (pair_plain _ hpair).2.2.1).mp rfl) (double_iff.mpr hpair)
  · rw [if_neg (by simpa using hpair)]
    by_cases hsingle : b ∈ singles
    · rw [if_pos (by simpa using hsingle)]
      refine .single rfl (bytes_operators ▸ hsingle) (alone_iff.mpr ⟨hslash, hpair⟩) ?_
      rw [opensNumber_iff, h.digit]
      rintro (hdigit | ⟨rfl, hdigit⟩)
      · exact Bool.noConfusion hdigit
      · rw [hdot rfl] at hdigit
        exact Bool.noConfusion hdigit
    · rw [if_neg (by simpa using hsingle)]
      refine .invalidByte rfl h.null ?_ ?_ ?_ (bytes_operators ▸ hsingle)
      · exact plain_iff.mpr ⟨h.space, h.ret, h.feed, h.quote⟩
      · rw [letter_iff, h.start]
        exact Bool.false_ne_true
      · rw [digit_iff, h.digit]
        exact Bool.false_ne_true

/-- The places of a comment behind its two first characters. -/
theorem isLeast_comment {Q : Nat → Prop} (h : IsLeast {i | Q (i + 2)} n) :
    IsLeast {i | 2 ≤ i ∧ Q i} (n + 2) := by
  refine isLeast_add (fun i hi hle => by omega) ?_
  simpa using h

/-- A block comment runs to its end, or to that of the source. -/
theorem munchSlash_block (body : List UInt8) : munchSlash (0x2A :: body)
    = (commentEnd? body).elim ⟨.unterminatedComment, body.length + 2⟩
        fun n => ⟨.blockComment, n + 2⟩ := by
  rw [munchSlash, List.headD_cons, if_neg (by decide), if_pos rfl, List.drop_one, List.tail_cons]
  cases commentEnd? body with
  | some n => exact congrArg (Lexeme.mk .blockComment) (Nat.add_comm 2 n)
  | none => exact congrArg (Lexeme.mk .unterminatedComment) (Nat.add_comm 2 body.length)

/-- What a slash begins is a lexeme of the grammar. -/
theorem token_of_slash : Token (0x2F :: rest) (munchSlash rest).tag (munchSlash rest).length := by
  have hbody : ∀ {c : UInt8}, c ≠ 0 → rest.headD 0 = c → ∃ body, rest = c :: body := by
    rintro c hc rfl
    cases rest with
    | nil => exact absurd rfl hc
    | cons c body => exact ⟨body, rfl⟩
  -- the byte behind the slash decides between the comments and the operator
  by_cases hline : rest.headD 0 = 0x2F
  · obtain ⟨body, rfl⟩ := hbody (by decide) hline
    rw [munchSlash, if_pos hline, Nat.add_comm]
    refine .lineComment (by simp [bytes_comments]) (isLeast_comment ?_)
    simpa using line_isLeast body
  by_cases hblock : rest.headD 0 = 0x2A
  · obtain ⟨body, rfl⟩ := hbody (by decide) hblock
    have hopen : Text.bytes "/*" <+: 0x2F :: 0x2A :: body := by simp [bytes_comments]
    rw [munchSlash_block]
    cases hend : commentEnd? body with
    | some n =>
      obtain ⟨i, rfl, hleast⟩ := comment_isLeast hend
      exact .blockComment hopen (isLeast_comment hleast)
    | none =>
      refine .unterminatedComment hopen fun i hi => ?_
      obtain ⟨k, rfl⟩ := Nat.exists_eq_add_of_le' hi
      exact comment_open hend k
  · rw [munchSlash, if_neg hline, if_neg hblock]
    refine token_of_operator ?_ (fun _ => ⟨hline, hblock⟩) (by simp)
    exact ⟨by decide, by decide, by decide, by decide, by decide, by decide, by decide⟩

/-- A quoted run goes from the quote up to the first place that ends it, and takes a closing
    quote along. -/
theorem munchQuoted_run (hquote : b = 0x22 ∨ b = 0x27) (rest : List UInt8) :
    ∃ i, IsLeast {i | 1 ≤ i ∧ EndsRun b (b :: rest) i} i
      ∧ munchQuoted b rest = if (b :: rest)[i]? = some b then ⟨.string, i + 1⟩
          else ⟨.unterminatedString, i⟩ := by
  have hplain : b ≠ backslash ∧ b ≠ cr ∧ b ≠ lf := by
    rcases hquote with rfl | rfl <;> decide
  obtain ⟨i, hleast, hlength⟩ := quoted_isLeast hplain rest
  -- the opening quote escapes nothing
  have hone : ¬ Escaped (b :: rest) 1 :=
    not_escaped_succ rfl (fun he => absurd he hplain.1) fun he => absurd he hplain.2.1
  refine ⟨i + 1, isLeast_add (fun j hj hle => by omega) ?_, ?_⟩
  · simpa [endsRun_drop hone (by simp)] using hleast
  · rw [munchQuoted, hlength, runLength, List.getElem?_cons_succ]
    split
    · rw [if_pos rfl, Nat.add_comm]
    · rw [if_neg Bool.false_ne_true, Nat.add_comm]

/-- What a quote begins is a lexeme of the grammar. -/
theorem token_of_quoted (hquote : b = 0x22 ∨ b = 0x27) :
    Token (b :: rest) (munchQuoted b rest).tag (munchQuoted b rest).length := by
  obtain ⟨i, hrun, hmunch⟩ := munchQuoted_run hquote rest
  rw [hmunch]
  split
  · exact .string rfl (quote_iff.mpr hquote) hrun ‹_›
  · exact .unterminatedString rfl (quote_iff.mpr hquote) hrun ‹_›

/-- **What is cut off** is the lexeme of the grammar. -/
theorem token_of_munch {lexeme : Lexeme} (h : munch s = some lexeme) :
    Token s lexeme.tag lexeme.length := by
  cases s with
  | nil => simp [munch] at h
  | cons b rest =>
    cases munch_inv h with
    | interiorNull hnull => exact .interiorNull (by rw [hnull]; rfl)
    | blank hblank =>
      exact .whitespace (blank_zero_iff.mpr (by simpa using hblank)) (blank_isLeast _)
    | carriageReturn hcr hlf =>
      exact .carriageReturn (by rw [hcr]; rfl) ((headD_eq_iff (by decide)).mp hlf)
    | lineFeed hlf => exact .lineFeed (by rw [hlf]; rfl)
    | ident hstart =>
      have hletter := letter_iff.mpr hstart
      exact .ident ⟨b, rfl, .inl hletter⟩ (word_isLeast hletter rest)
    | number hnumber =>
      have hopens := opensNumber_iff.mpr hnumber
      exact .number hopens (numeral_isLeast hopens)
    | quoted hquote => exact token_of_quoted hquote
    | slash hslash =>
      subst hslash
      exact token_of_slash
    | operator hoperator hslash hdot =>
      exact token_of_operator hoperator (fun he => absurd he hslash) hdot

/-! A lexeme of the grammar is cut off: the bytes that open its class decide. -/

/-- A text with a first byte. -/
theorem exists_cons {c : UInt8} (h : s[0]? = some c) : ∃ rest, s = c :: rest := by
  cases s with
  | nil => simp at h
  | cons b rest => exact ⟨rest, congrArg (· :: rest) (by simpa using h)⟩

/-- Behind what opens a block comment, its places are those of the bytes that follow. -/
theorem commentEnd?_of_isLeast (body : List UInt8)
    (h : IsLeast {i | 2 ≤ i ∧ Text.bytes "*/" <+: (0x2F :: 0x2A :: body).drop i} n) :
    commentEnd? body = some n := by
  cases hend : commentEnd? body with
  | some m =>
    obtain ⟨i, rfl, hleast⟩ := comment_isLeast hend
    rw [(isLeast_comment hleast).unique h]
  | none =>
    obtain ⟨k, rfl⟩ := Nat.exists_eq_add_of_le' h.1.1
    exact absurd h.1.2 (comment_open hend k)

/-- Where no end of a comment stands none is found. -/
theorem commentEnd?_of_open (body : List UInt8)
    (h : ∀ i, 2 ≤ i → ¬ Text.bytes "*/" <+: (0x2F :: 0x2A :: body).drop i) :
    commentEnd? body = none := by
  cases hend : commentEnd? body with
  | none => rfl
  | some m =>
    obtain ⟨i, -, hleast⟩ := comment_isLeast hend
    exact absurd hleast.1 (h (i + 2) (Nat.le_add_left 2 i))

/-- Where the quoted run ends decides between its two classes. -/
theorem munch_of_quoted {quote : UInt8} {i : Nat} (hhead : s[0]? = some quote)
    (hquote : quote ∈ Text.bytes "\"'") (hleast : IsLeast {i | 1 ≤ i ∧ EndsRun quote s i} i) :
    munch s = some (if s[i]? = some quote then ⟨.string, i + 1⟩
      else ⟨.unterminatedString, i⟩) := by
  obtain ⟨rest, rfl⟩ := exists_cons hhead
  obtain ⟨j, hrun, hmunch⟩ := munchQuoted_run (quote_iff.mp hquote) rest
  obtain rfl := hrun.unique hleast
  rw [(Opens.quoted (quote_iff.mp hquote)).munch_eq, hmunch]

/-- A line comment of the grammar is cut off. -/
theorem munch_of_lineComment (hopen : Text.bytes "//" <+: s)
    (hleast : IsLeast {i | 2 ≤ i ∧ (s.length ≤ i ∨ s[i]? = some lf)} n) :
    munch s = some ⟨.lineComment, n⟩ := by
  obtain ⟨body, rfl⟩ := hopen
  rw [bytes_comments.1] at hleast ⊢
  have hline : IsLeast {i | 2 ≤ i ∧ ((0x2F :: 0x2F :: body).length ≤ i
      ∨ (0x2F :: 0x2F :: body)[i]? = some lf)} _ :=
    isLeast_comment (n := (body.findIdx? (· == lf)).getD body.length)
      (by simpa using line_isLeast body)
  show munch (0x2F :: 0x2F :: body) = _
  rw [munch_slash, munchSlash, List.headD_cons, if_pos rfl, List.drop_one, List.tail_cons,
    hleast.unique hline, Nat.add_comm]

/-- A block comment of the grammar is cut off, closed or not. -/
theorem munch_of_blockComment (hopen : Text.bytes "/*" <+: s) :
    munch s = some ((commentEnd? (s.drop 2)).elim ⟨.unterminatedComment, s.length⟩
      fun n => ⟨.blockComment, n + 2⟩) := by
  obtain ⟨body, rfl⟩ := hopen
  rw [bytes_comments.2]
  show munch (0x2F :: 0x2A :: body) = _
  rw [munch_slash, munchSlash_block]
  rfl

/-- An operator of two characters is cut off. -/
theorem munch_of_pair {a : UInt8} (ha : s[0]? = some a) (hb : s[1]? = some b)
    (hpair : [a, b] ∈ doubles.map Text.bytes) : munch s = some ⟨.pair a b, 2⟩ := by
  obtain ⟨rest, rfl⟩ := exists_cons ha
  have hmem := double_iff.mp hpair
  obtain ⟨hsingle, hdot, hnull, hslash⟩ := pair_plain _ hmem
  obtain rfl : rest.headD 0 = b := (headD_eq_iff hnull).mpr hb
  rw [munch_operator hsingle hslash (fun he => absurd he hdot), munchOperator,
    if_pos (by simpa using hmem)]

/-- An operator of one character is cut off, where nothing longer begins. -/
theorem munch_of_single (hb : s[0]? = some b) (hmem : b ∈ Text.bytes operators)
    (halone : ∀ text ∈ "//" :: "/*" :: doubles, ¬ Text.bytes text <+: s)
    (hnumber : ¬ OpensNumber s) : munch s = some ⟨.single b, 1⟩ := by
  obtain ⟨rest, rfl⟩ := exists_cons hb
  obtain ⟨hslash, hpair⟩ := alone_iff.mp halone
  have hsingle : b ∈ singles := bytes_operators ▸ hmem
  -- a dot before a digit would open a number
  have hdot : b = 0x2E → isDigit (rest.headD 0) = false := fun he =>
    Bool.eq_false_iff.mpr fun hdigit => hnumber (opensNumber_iff.mpr (.inr ⟨he, hdigit⟩))
  rw [munch_operator hsingle hslash hdot, munchOperator, if_neg (by simpa using hpair),
    if_pos (by simpa using hsingle)]

/-- A byte of no class is cut off by itself. -/
theorem munch_of_invalidByte (hb : s[0]? = some b) (hnull : b ≠ 0)
    (hplain : b ∉ Text.bytes " \t\x0b\x0c\r\n\"'") (hletter : ¬ Letter b) (hdigit : ¬ Digit b)
    (hmem : b ∉ Text.bytes operators) : munch s = some ⟨.invalidByte b, 1⟩ := by
  obtain ⟨rest, rfl⟩ := exists_cons hb
  have hsingle : b ∉ singles := bytes_operators ▸ hmem
  have hpair : (b, rest.headD 0) ∉ pairs := fun h => hsingle (pair_plain _ h).1
  obtain ⟨hspace, hcr, hlf, hquote⟩ := plain_iff.mp hplain
  have hoperator : OpensOperator b := ⟨hnull, by simpa using hspace, hcr, hlf,
    by simpa using mt letter_iff.mpr hletter, by simpa using mt digit_iff.mpr hdigit, hquote⟩
  have hslash : b ≠ 0x2F := by
    rintro rfl
    exact hsingle (by decide)
  have hdot : b = 0x2E → isDigit (rest.headD 0) = false := by
    rintro rfl
    exact absurd (by decide) hsingle
  rw [(Opens.operator hoperator hslash hdot).munch_eq, munchOperator,
    if_neg (by simpa using hpair), if_neg (by simpa using hsingle)]

/-- **The grammar has no other lexeme** than what is cut off. -/
theorem Token.munch_eq (h : Token s tag n) : munch s = some ⟨tag, n⟩ := by
  cases h with
  | whitespace hblank hleast =>
    obtain ⟨b, hb, -⟩ := id hblank
    obtain ⟨rest, rfl⟩ := exists_cons hb
    have hopens : isSpace b = true ∨ b = cr ∧ rest.headD 0 ≠ lf := by
      simpa using blank_zero_iff.mp hblank
    rw [(Opens.blank hopens).munch_eq, (blank_isLeast _).unique hleast]
  | lineFeed hlf =>
    obtain ⟨rest, rfl⟩ := exists_cons hlf
    rfl
  | carriageReturn hcr hlf =>
    obtain ⟨rest, rfl⟩ := exists_cons hcr
    exact (Opens.carriageReturn rfl ((headD_eq_iff (by decide)).mpr hlf)).munch_eq
  | lineComment hopen hleast => exact munch_of_lineComment hopen hleast
  | blockComment hopen hleast =>
    rw [munch_of_blockComment hopen]
    obtain ⟨body, rfl⟩ := hopen
    rw [bytes_comments.2] at hleast ⊢
    show some ((commentEnd? body).elim _ _) = _
    rw [commentEnd?_of_isLeast body hleast]
    rfl
  | unterminatedComment hopen hnone =>
    rw [munch_of_blockComment hopen]
    obtain ⟨body, rfl⟩ := hopen
    rw [bytes_comments.2] at hnone ⊢
    show some ((commentEnd? body).elim _ _) = _
    rw [commentEnd?_of_open body hnone]
    rfl
  | ident hword hleast =>
    obtain ⟨b, hb, -⟩ := id hword
    obtain ⟨rest, rfl⟩ := exists_cons hb
    have hletter : Letter b := by simpa [Word] using hword
    rw [(Opens.ident (letter_iff.mp hletter)).munch_eq,
      (word_isLeast hletter rest).unique hleast]
  | number hopens hleast =>
    obtain ⟨b, rest, rfl⟩ : ∃ b rest, s = b :: rest := by
      rcases hopens with ⟨c, hc, -⟩ | ⟨hc, -⟩
      · exact ⟨c, exists_cons hc⟩
      · exact ⟨_, exists_cons hc⟩
    have hlength := (numeral_isLeast hopens).unique hleast
    rw [(Opens.number (opensNumber_iff.mp hopens)).munch_eq, ← hlength]
    rfl
  | string hhead hquote hleast hclosed =>
    rw [munch_of_quoted hhead hquote hleast, if_pos hclosed]
  | unterminatedString hhead hquote hleast hopen =>
    rw [munch_of_quoted hhead hquote hleast, if_neg hopen]
  | pair ha hb hpair => exact munch_of_pair ha hb hpair
  | single hb hmem halone hnumber => exact munch_of_single hb hmem halone hnumber
  | interiorNull hnull =>
    obtain ⟨rest, rfl⟩ := exists_cons hnull
    rfl
  | invalidByte hb hnull hplain hletter hdigit hmem =>
    exact munch_of_invalidByte hb hnull hplain hletter hdigit hmem

/-- The lexeme at the head of the bytes is the one that is cut off. -/
theorem munch_iff {lexeme : Lexeme} :
    munch s = some lexeme ↔ Token s lexeme.tag lexeme.length :=
  ⟨token_of_munch, Token.munch_eq⟩

end Cut

/-! ## §7. Calls and scans -/

section Calls

variable {offset : Nat} {s : List UInt8} {lexeme : Lexeme} {lexemes : List (Nat × Lexeme)}

/-- Nothing is cut off at the end only. -/
theorem munch_eq_none_iff : munch s = none ↔ s = [] := by
  cases s <;> simp [munch]

/-- An empty source has no lexemes. -/
theorem tokens_nil_iff : Tokens offset [] lexemes ↔ lexemes = [] := by
  constructor
  · rintro (_ | ⟨htoken, -⟩)
    · rfl
    · exact absurd htoken.munch_eq (by simp [munch])
  · rintro rfl
    exact .nil

/-- The lexeme at the head is determined, so only the rest is left to tell. -/
theorem tokens_cons_iff (h : munch s = some lexeme) :
    Tokens offset s lexemes ↔ ∃ rest, lexemes = (offset, lexeme) :: rest
      ∧ Tokens (offset + lexeme.length) (s.drop lexeme.length) rest := by
  constructor
  · rintro (_ | ⟨htoken, hrest⟩)
    · simp [munch] at h
    · rename_i other rest
      obtain rfl : lexeme = other := Option.some.inj (h.symm.trans htoken.munch_eq)
      exact ⟨rest, rfl, hrest⟩
  · rintro ⟨rest, rfl, hrest⟩
    exact .cons (token_of_munch h) hrest

/-- A scan with a turn for each byte ahead. -/
theorem scanFrom_eq_iff {fuel : Nat} {c : Cursor} (hfuel : c.rest.length ≤ fuel) :
    scanFrom fuel c = lexemes ↔ Tokens c.pos c.rest lexemes := by
  induction fuel generalizing c lexemes with
  | zero =>
    rw [List.length_eq_zero_iff.mp (Nat.le_zero.mp hfuel), tokens_nil_iff, scanFrom, eq_comm]
  | succ fuel ih =>
    rw [scanFrom, next?_eq]
    cases hmunch : munch c.rest with
    | none => rw [munch_eq_none_iff.mp hmunch, tokens_nil_iff, Option.map_none, eq_comm]
    | some lexeme =>
      -- the lexeme has bytes, so there are fewer ahead behind it
      have hshorter : (c.advance lexeme.length).rest.length ≤ fuel := by
        have hpos := munch_pos hmunch
        rw [Cursor.rest_advance, List.length_drop]
        omega
      have hrest : ∀ rest, scanFrom fuel (c.advance lexeme.length) = rest
          ↔ Tokens (c.pos + lexeme.length) (c.rest.drop lexeme.length) rest :=
        fun rest => ih hshorter
      rw [tokens_cons_iff hmunch, Option.map_some]
      constructor
      · rintro rfl
        exact ⟨_, rfl, (hrest _).mp rfl⟩
      · rintro ⟨rest, rfl, htokens⟩
        exact congrArg _ ((hrest rest).mpr htokens)

end Calls

end Grammar

open Grammar in
/-- **The scanner reads the lexical grammar.**  At any offset of any source it answers with the
    lexeme that the grammar has there, moving behind it, and finds none only at the end; and a
    text is scanned as its lexemes, one behind the other. -/
theorem next?_grammar :
    (∀ (source : List UInt8) (offset : Nat),
      (next? ((Cursor.start source).advance offset) = none ↔ source.length ≤ offset)
      ∧ ∀ (lexeme : Lexeme) (behind : Cursor),
          next? ((Cursor.start source).advance offset) = some (lexeme, behind)
            ↔ Token (source.drop offset) lexeme.tag lexeme.length
              ∧ behind = (Cursor.start source).advance (offset + lexeme.length))
    ∧ ∀ (text : String) (lexemes : List (Nat × Lexeme)),
        scan text = lexemes ↔ Tokens 0 (Text.bytes text) lexemes := by
  refine ⟨fun source offset => ⟨?_, fun lexeme behind => ?_⟩, fun text lexemes => ?_⟩
  · rw [next?_eq_none_iff, Cursor.atEnd_iff, Cursor.pos_advance, Cursor.source_advance]
    show source.length ≤ 0 + offset ↔ _
    rw [Nat.zero_add]
  · rw [next?_eq, ← munch_iff, Option.map_eq_some_iff]
    constructor
    · rintro ⟨other, hmunch, heq⟩
      obtain ⟨rfl, rfl⟩ := Prod.mk.inj heq
      exact ⟨hmunch, Cursor.advance_advance _ _ _⟩
    · rintro ⟨hmunch, rfl⟩
      exact ⟨lexeme, hmunch, congrArg _ (Cursor.advance_advance _ _ _)⟩
  · exact scanFrom_eq_iff (Nat.le_refl _)

end KernelPrep.Lexeme
