/-
  KernelPrep.Proofs.Token.Pieces — new text is read back as it was spelled.

  The pieces of new text are tokens by construction, without a second reading.  Reading them
  again gives the same tokens when their words are words, and when what stands next to a word
  is a blank, a bracket, a comma, a semicolon or a line end.

  Main definitions:
    * `Text.IsName`, `Text.IsWord`   — what is read as one symbol, and as one symbol or number;
    * `Spelling.Firm`, `Spelling.Held` — tokens that are read before everything, and before a
      break.

  Main statements:
    * `Text.words_join`      — the words of words with blanks between them;
    * `Piece.call_firm`      — calls are read before everything.
-/
import KernelPrep.Proofs.Lexeme.Follow
import KernelPrep.Proofs.Token.Lexing
import KernelPrep.Token.Run

namespace KernelPrep

open Lexeme (isIdentPart isIdentStart isDigit isBreak cr lf)

/-! ## §1. Names and numerals -/

namespace Text

/-- A character with an ASCII byte is that byte. -/
theorem encode_of_ascii {c : Char} {b : UInt8} (hb : b ∈ String.utf8EncodeChar c)
    (hascii : isAscii b = true) : c.toNat ≤ 127 ∧ b = UInt8.ofNat c.toNat := by
  -- a longer encoding has no byte below 128
  have hlow : c.toNat ≤ 127 := by
    by_contra hhigh
    rcases encode_ascii c with ⟨b', hone⟩ | hnone
    · have hlong : (String.utf8EncodeChar c).length ≠ 1 := by
        unfold String.utf8EncodeChar
        dsimp only
        rw [if_neg (show ¬ c.val.toNat ≤ 127 from hhigh)]
        split
        · simp
        · split <;> simp
      rw [hone] at hlong
      exact hlong rfl
    · rw [hnone b hb] at hascii
      exact Bool.noConfusion hascii
  refine ⟨hlow, ?_⟩
  unfold String.utf8EncodeChar at hb
  dsimp only at hb
  rw [if_pos (show c.val.toNat ≤ 127 from hlow)] at hb
  exact List.mem_singleton.mp hb

/-- Every character has a byte. -/
theorem encode_ne_nil (c : Char) : String.utf8EncodeChar c ≠ [] := by
  unfold String.utf8EncodeChar
  dsimp only
  split
  · simp
  · split
    · simp
    · split <;> simp

/-- The characters of a text whose bytes are all of a class of ASCII bytes. -/
theorem char_of_bytes {p : UInt8 → Bool} {text : String} (hp : ∀ b, p b = true → isAscii b = true)
    (h : ∀ b ∈ bytes text, p b = true) {c : Char} (hc : c ∈ text.toList) :
    c.toNat ≤ 127 ∧ p (UInt8.ofNat c.toNat) = true := by
  obtain ⟨b, hb⟩ := List.exists_mem_of_ne_nil _ (encode_ne_nil c)
  have hclass : p b = true := by
    refine h b ?_
    rw [bytes_eq]
    exact List.mem_flatMap.mpr ⟨c, hc, hb⟩
  obtain ⟨hlow, rfl⟩ := encode_of_ascii hb (hp b hclass)
  exact ⟨hlow, hclass⟩

/-- A character below 128 is a digit if its byte is. -/
theorem digit_iff {c : Char} (hlow : c.toNat ≤ 127) :
    ('0' ≤ c && c ≤ '9') = isDigit (UInt8.ofNat c.toNat) := by
  have hall : ∀ n ≤ 127, isDigit (UInt8.ofNat n) = (decide (48 ≤ n) && decide (n ≤ 57)) := by
    decide
  rw [hall c.toNat hlow]
  rfl

/-- Letters, digits and underscores are no blanks. -/
theorem isBlank_of_identPart {c : Char} (hlow : c.toNat ≤ 127)
    (hpart : isIdentPart (UInt8.ofNat c.toNat) = true) : isBlank c = false := by
  have hall : ∀ n ≤ 127, isIdentPart (UInt8.ofNat n) = true → ¬ (9 ≤ n ∧ n ≤ 13) ∧ n ≠ 0x20 := by
    decide
  obtain ⟨hcontrol, hspace⟩ := hall c.toNat hlow hpart
  unfold isBlank
  simp only [Bool.or_eq_false_iff, Bool.and_eq_false_iff, decide_eq_false_iff_not,
    beq_eq_false_iff_ne]
  omega

/-- A text that is read as one symbol. -/
structure IsName (text : String) : Prop where
  formed : Lexeme.Formed .ident (bytes text)
  plain : TokenKind.keyword? text = none

/-- A text of digits. -/
structure IsNumeral (text : String) : Prop where
  ne_nil : bytes text ≠ []
  digits : ∀ b ∈ bytes text, isDigit b = true

/-- A text that is read as one symbol or number. -/
def IsWord (text : String) : Prop := IsName text ∨ IsNumeral text

/-- A name is made of bytes of identifiers. -/
theorem IsName.part {text : String} (h : IsName text) : ∀ b ∈ bytes text, isIdentPart b = true := by
  have hformed := h.formed
  generalize bytes text = all at hformed
  cases hformed with
  | ident hb hbody =>
    exact List.forall_mem_cons.mpr ⟨Lexeme.isIdentPart_of_start hb, hbody⟩

theorem IsName.ne_nil {text : String} (h : IsName text) : bytes text ≠ [] := h.formed.ne_nil

/-- A name begins with a letter or an underscore. -/
theorem IsName.head {text : String} (h : IsName text) :
    ∃ b body, bytes text = b :: body ∧ isIdentStart b = true := by
  have hformed := h.formed
  generalize bytes text = all at hformed
  cases hformed with
  | ident hb hbody => exact ⟨_, _, rfl, hb⟩

/-- A name is an identifier that is no keyword. -/
theorem isName_iff {text : String} : IsName text ↔ isIdentStart ((bytes text).headD 0) = true
    ∧ (bytes text).all isIdentPart = true ∧ TokenKind.keyword? text = none := by
  rw [List.all_eq_true]
  constructor
  · intro h
    obtain ⟨b, body, hbytes, hstart⟩ := h.head
    exact ⟨by rwa [hbytes], h.part, h.plain⟩
  · rintro ⟨hstart, hpart, hplain⟩
    refine ⟨?_, hplain⟩
    cases hbytes : bytes text with
    | nil => simp [hbytes, isIdentStart] at hstart
    | cons b body =>
      rw [hbytes] at hstart hpart
      exact .ident hstart fun c hc => hpart c (List.mem_cons_of_mem _ hc)

instance (text : String) : Decidable (IsName text) := decidable_of_iff _ isName_iff.symm

/-- A word is made of bytes of identifiers. -/
theorem IsWord.part {text : String} (h : IsWord text) : ∀ b ∈ bytes text, isIdentPart b = true := by
  rcases h with hname | hnumeral
  · exact hname.part
  · exact fun b hb => Lexeme.isIdentPart_of_digit (hnumeral.digits b hb)

/-- No word is empty. -/
theorem IsWord.ne_nil {text : String} (h : IsWord text) : bytes text ≠ [] := by
  rcases h with hname | hnumeral
  · exact hname.ne_nil
  · exact hnumeral.ne_nil

/-- Two underscores and what a name may go on with are a name. -/
theorem isName_underscores {text : String} (h : ∀ b ∈ bytes text, isIdentPart b = true) :
    IsName ("__" ++ text) := by
  have hbytes : bytes ("__" ++ text) = 0x5F :: 0x5F :: bytes text := by
    rw [bytes_append]
    rfl
  refine ⟨?_, ?_⟩
  · rw [hbytes]
    exact .ident (by decide) (List.forall_mem_cons.mpr ⟨by decide, h⟩)
  · unfold TokenKind.keyword?
    split
    · rename_i he
      rw [he] at hbytes
      simp [show bytes "typedef" = [0x74, 0x79, 0x70, 0x65, 0x64, 0x65, 0x66] by decide +kernel]
        at hbytes
    · rename_i he
      rw [he] at hbytes
      simp [show bytes "struct" = [0x73, 0x74, 0x72, 0x75, 0x63, 0x74] by decide +kernel] at hbytes
    · rfl

/-- The digits of a number. -/
theorem isNumeral_toString (n : Nat) : IsNumeral (toString n) := by
  have hchar : ∀ c ∈ (toString n).toList, c.isDigit = true := by
    intro c hc
    rw [show toString n = n.repr from rfl, Nat.toList_repr] at hc
    exact Nat.isDigit_of_mem_toDigits (by decide) (by decide) hc
  -- a digit is encoded by one byte, its code point
  have hbyte : ∀ c : Char, c.isDigit = true →
      ∃ b, String.utf8EncodeChar c = [b] ∧ isDigit b = true := by
    intro c hc
    simp only [Char.isDigit, Bool.and_eq_true, decide_eq_true_eq, UInt32.le_iff_toNat_le] at hc
    have hlow : (48 : Nat) ≤ c.val.toNat := hc.1
    have hhigh : c.val.toNat ≤ 57 := hc.2
    refine ⟨UInt8.ofNat c.val.toNat, ?_, ?_⟩
    · unfold String.utf8EncodeChar
      dsimp only
      rw [if_pos (by omega)]
    · have hall : ∀ n ≤ 57, 48 ≤ n → isDigit (UInt8.ofNat n) = true := by decide
      exact hall _ hhigh hlow
  constructor
  · rw [Ne, bytes_eq_nil]
    intro hnil
    have hchars := congrArg String.toList hnil
    rw [show toString n = n.repr from rfl, Nat.toList_repr] at hchars
    exact Nat.toDigits_ne_nil hchars
  · intro b hb
    rw [bytes_eq] at hb
    obtain ⟨c, hc, hbc⟩ := List.mem_flatMap.mp hb
    obtain ⟨b', hone, hdigit⟩ := hbyte c (hchar c hc)
    rw [hone] at hbc
    rwa [List.mem_singleton.mp hbc]

/-! ## §2. Words -/

/-- Characters that are no blanks go on with a word. -/
theorem wordsFrom_append {word chars more : List Char} (h : ∀ c ∈ chars, isBlank c = false) :
    wordsFrom word (chars ++ more) = wordsFrom (chars.reverse ++ word) more := by
  induction chars generalizing word with
  | nil => rfl
  | cons c chars ih =>
    rw [List.cons_append, wordsFrom, if_neg (by simp [h c List.mem_cons_self]),
      ih fun d hd => h d (List.mem_cons_of_mem _ hd)]
    simp

/-- A word has characters, none of them a blank. -/
theorem IsWord.chars {text : String} (h : IsWord text) :
    text.toList ≠ [] ∧ ∀ c ∈ text.toList, isBlank c = false := by
  constructor
  · intro hnil
    refine h.ne_nil ?_
    rw [bytes_eq, hnil]
    rfl
  · intro c hc
    obtain ⟨hlow, hpart⟩ := char_of_bytes (fun _ => Lexeme.isAscii_of_identPart) h.part hc
    exact isBlank_of_identPart hlow hpart

/-- **The words** of words with blanks between them. -/
theorem words_join {words : List String} (h : ∀ word ∈ words, IsWord word) :
    Text.words (" ".intercalate words) = words := by
  induction words with
  | nil => rfl
  | cons word more ih =>
    obtain ⟨hne, hchars⟩ := (h word List.mem_cons_self).chars
    have hempty : (word.toList.reverse ++ []).isEmpty = false := by simpa using hne
    have ih := ih fun other hin => h other (List.mem_cons_of_mem _ hin)
    cases more with
    | nil =>
      unfold Text.words
      rw [String.intercalate_singleton, ← List.append_nil word.toList, wordsFrom_append hchars,
        wordsFrom, hempty]
      simp
    | cons next more =>
      unfold Text.words at ih ⊢
      rw [String.intercalate_cons_cons, String.toList_append, String.toList_append,
        List.append_assoc, wordsFrom_append hchars]
      -- the blank ends the first word, and the others are read from behind it
      show (wordsFrom _ (' ' :: (" ".intercalate (next :: more)).toList)).map String.ofList = _
      rw [wordsFrom, if_pos (by decide), hempty, if_neg Bool.false_ne_true, List.map_cons, ih]
      simp

end Text

/-! ## §3. Tokens before a break -/

namespace Spelling

/-- The tokens are read whatever follows them. -/
def Firm (spelling : Spelling) : Prop := ∀ rest, spelling.Reads rest

/-- The tokens are read before a break. -/
def Held (spelling : Spelling) : Prop :=
  ∀ b rest, isBreak b = true → spelling.Reads (b :: rest)

/-- The text of the tokens starts with a byte of the class. -/
def Begins (p : UInt8 → Bool) (spelling : Spelling) : Prop :=
  ∃ b more, Text.bytes spelling.text = b :: more ∧ p b = true

variable {a b spelling : Spelling} {rest : List UInt8} {kind : TokenKind} {text : String}

/-- Tokens that are read whatever follows them, one row behind the other. -/
theorem Firm.append (ha : a.Firm) (hb : b.Firm) : (a ++ b).Firm := fun rest =>
  reads_append.mpr ⟨ha _, hb rest⟩

/-- Tokens that are read before a break, and such as begin with one. -/
theorem Held.append (ha : a.Held) (hb : b.Begins isBreak) (hreads : b.Reads rest) :
    (a ++ b).Reads rest := by
  obtain ⟨c, more, hbytes, hbreak⟩ := hb
  refine reads_append.mpr ⟨?_, hreads⟩
  rw [hbytes]
  exact ha c _ hbreak

/-- What begins a row begins what it is part of. -/
theorem Begins.append {p : UInt8 → Bool} (ha : a.Begins p) (b : Spelling) : (a ++ b).Begins p := by
  obtain ⟨c, more, hbytes, hc⟩ := ha
  refine ⟨c, more ++ Text.bytes b.text, ?_, hc⟩
  rw [text_append, Text.bytes_append, hbytes]
  rfl

/-- A byte of one class is a byte of a larger one. -/
theorem Begins.mono {p q : UInt8 → Bool} (h : spelling.Begins p)
    (hpq : ∀ c, p c = true → q c = true) : spelling.Begins q := by
  obtain ⟨c, more, hbytes, hc⟩ := h
  exact ⟨c, more, hbytes, hpq c hc⟩

/-- A token that is read before a byte of a class is read before tokens that begin with one. -/
theorem Begins.reads_cons {p : UInt8 → Bool} (hbegins : spelling.Begins p)
    (hheads : ∀ b more, p b = true → kind.Heads text (b :: more)) (h : spelling.Reads rest) :
    Reads ((kind, text) :: spelling) rest := by
  obtain ⟨b, more, hbytes, hb⟩ := hbegins
  refine ⟨?_, h⟩
  rw [hbytes]
  exact hheads b _ hb

/-- A row begins as its first token does. -/
theorem begins_cons {p : UInt8 → Bool} {c : UInt8} {more : List UInt8}
    (htext : Text.bytes text = c :: more) (hc : p c = true) :
    Begins p ((kind, text) :: spelling) := by
  refine ⟨c, more ++ Text.bytes spelling.text, ?_, hc⟩
  rw [text_cons, Text.bytes_append, htext]
  rfl

/-- Lines that are read before everything, and begin with a byte of the class if there are
    any. -/
structure Block (p : UInt8 → Bool) (spelling : Spelling) : Prop where
  firm : spelling.Firm
  begins : spelling ≠ [] → spelling.Begins p

theorem Block.nil {p : UInt8 → Bool} : Block p [] := ⟨fun _ => trivial, fun hne => absurd rfl hne⟩

/-- Lines behind lines. -/
theorem Block.append {p : UInt8 → Bool} (ha : Block p a) (hb : Block p b) : Block p (a ++ b) := by
  refine ⟨ha.firm.append hb.firm, fun hne => ?_⟩
  cases a with
  | nil => exact hb.begins hne
  | cons entry a => exact (ha.begins (by simp)).append b

/-- Lines made of several items. -/
theorem Block.flatMap {α : Type} {p : UInt8 → Bool} {items : List α} {f : α → Spelling}
    (h : ∀ item ∈ items, Block p (f item)) : Block p (items.flatMap f) := by
  induction items with
  | nil => exact .nil
  | cons item items ih =>
    rw [List.flatMap_cons]
    exact (h item List.mem_cons_self).append
      (ih fun item' hin => h item' (List.mem_cons_of_mem _ hin))

end Spelling

/-! ## §4. The tokens of pieces -/

section Heads

variable {text : String} {rest : List UInt8} {b : UInt8}

/-- A number goes on with all bytes of identifiers. -/
theorem Lexeme.numberLength_all {hex : Bool} {before : UInt8} {body : List UInt8}
    (h : ∀ c ∈ body, isIdentPart c = true) : numberLength hex before body = body.length := by
  induction body generalizing before with
  | nil => rfl
  | cons c body ih =>
    rw [numberLength, if_pos (by simp [h c List.mem_cons_self]),
      ih fun d hd => h d (List.mem_cons_of_mem _ hd), List.length_cons]

/-- A name is read as a symbol where no byte of an identifier follows it. -/
theorem Text.IsName.heads (h : Text.IsName text)
    (hrest : ∀ b ∈ rest.head?, isIdentPart b = false) : TokenKind.symbol.Heads text rest :=
  ⟨.ident, h.formed, hrest, by simp [TokenKind.ofTag?, h.plain]⟩

/-- A numeral is read as a number before a break. -/
theorem Text.IsNumeral.heads (h : Text.IsNumeral text) (hb : isBreak b = true) :
    TokenKind.number.Heads text (b :: rest) := by
  refine ⟨.number, ?_, Lexeme.stops_break (by simp) (by simp) hb, rfl⟩
  have hdigits := h.digits
  obtain ⟨c, body, hbytes⟩ := List.exists_cons_of_ne_nil h.ne_nil
  rw [hbytes] at hdigits ⊢
  refine .number (Or.inl (hdigits c List.mem_cons_self)) (Lexeme.numberLength_all fun d hd => ?_)
  exact Lexeme.isIdentPart_of_digit (hdigits d (List.mem_cons_of_mem _ hd))

/-- A name is not made of digits alone. -/
theorem Text.IsName.not_digits (h : Text.IsName text) :
    text.toList.all (fun c => '0' ≤ c && c ≤ '9') = false := by
  obtain ⟨b, body, hbytes, hstart⟩ := h.head
  rw [bytes_eq] at hbytes
  cases hchars : text.toList with
  | nil => simp [hchars] at hbytes
  | cons c chars =>
    obtain ⟨hlow, -⟩ := char_of_bytes (fun _ => Lexeme.isAscii_of_identPart) h.part
      (show c ∈ text.toList by simp [hchars])
    -- the first character is a single byte, and that byte starts a name
    have hfirst : UInt8.ofNat c.toNat = b := by
      rw [hchars, List.flatMap_cons] at hbytes
      unfold String.utf8EncodeChar at hbytes
      dsimp only at hbytes
      rw [if_pos (show c.val.toNat ≤ 127 from hlow)] at hbytes
      exact (List.cons.inj hbytes).1
    have hdigit : isDigit b = false := by
      by_contra hd
      rw [Lexeme.isIdentStart_of_digit (by simpa using hd)] at hstart
      exact Bool.noConfusion hstart
    rw [List.all_cons, digit_iff hlow, hfirst, hdigit, Bool.false_and]

/-- A numeral is made of digits, character by character. -/
theorem Text.IsNumeral.all_digits (h : Text.IsNumeral text) :
    text.toList.all (fun c => '0' ≤ c && c ≤ '9') = true := by
  rw [List.all_eq_true]
  intro c hc
  obtain ⟨hlow, hdigit⟩ := char_of_bytes
    (fun _ hd => Lexeme.isAscii_of_identPart (Lexeme.isIdentPart_of_digit hd)) h.digits hc
  rw [digit_iff hlow]
  exact hdigit

/-- **A word** is read before a break, as what its characters say. -/
theorem Piece.spellWord_heads {word : String} (h : Text.IsWord word) (hb : isBreak b = true) :
    (spellWord word).1.Heads (spellWord word).2 (b :: rest) := by
  unfold spellWord
  rcases h with hname | hnumeral
  · rw [hname.not_digits, if_neg Bool.false_ne_true]
    refine hname.heads ?_
    simpa using (Lexeme.isBreak_plain hb).1
  · rw [hnumeral.all_digits, if_pos rfl]
    exact hnumeral.heads hb

/-- **Brackets, commas and semicolons** are read before everything. -/
theorem TokenKind.heads_firm {kind : TokenKind}
    (hkind : kind ∈ [.lparen, .rparen, .lbrace, .rbrace, .comma, .semicolon]) :
    kind.Heads (kind.spelling?.getD "") rest := by
  have hall : ∀ kind ∈ [TokenKind.lparen, .rparen, .lbrace, .rbrace, .comma, .semicolon],
      ∃ b ∈ Lexeme.singles, Text.bytes (kind.spelling?.getD "") = [b] ∧ Lexeme.isFirm b = true
        ∧ TokenKind.ofByte? b = some kind := by decide +kernel
  obtain ⟨b, hsingle, hbytes, hfirm, hof⟩ := hall kind hkind
  refine ⟨.single b, ?_, Lexeme.stops_firm hfirm, hof⟩
  rw [hbytes]
  exact .single hsingle

/-- A `#` is read before a word. -/
theorem TokenKind.heads_hash (hb : isIdentStart b = true) :
    TokenKind.hash.Heads "#" (b :: rest) := by
  refine ⟨.single 0x23, ?_, ⟨fun hin => ?_, by simp, by simp⟩, by decide⟩
  · rw [show Text.bytes "#" = [0x23] by decide +kernel]
    exact .single (by decide)
  · have hsecond := Lexeme.pair_second _ hin
    rw [List.headD_cons, hb] at hsecond
    exact Bool.noConfusion hsecond

/-- Spaces are read before what is no blank. -/
theorem TokenKind.heads_spaces {width : Nat} (hwidth : 0 < width)
    (hspace : Lexeme.isSpace b = false) (hcr : b ≠ cr) (hlf : b ≠ lf) :
    TokenKind.whitespace.Heads (String.ofList (List.replicate width ' ')) (b :: rest) := by
  have hbytes : Text.bytes (String.ofList (List.replicate width ' '))
      = List.replicate width 0x20 := by
    rw [Text.bytes_eq, String.toList_ofList, List.flatMap_replicate,
      show String.utf8EncodeChar ' ' = [0x20] by decide]
    simp
  refine ⟨.whitespace, ?_, Lexeme.stops_blank hspace hcr hlf, rfl⟩
  rw [hbytes]
  refine .whitespace (by simpa using Nat.ne_of_gt hwidth) fun c hc => ?_
  rw [(List.mem_replicate.mp hc).2]
  rfl

/-- Line ends are read before everything. -/
theorem TokenKind.heads_eol (h : Lexeme.Formed .newline (Text.bytes text)) :
    TokenKind.eol.Heads text rest := ⟨.newline, h, trivial, rfl⟩

/-- A quoted run without quotes, backslashes and line ends is closed by its quote. -/
theorem Lexeme.quoted_append {quote : UInt8} {body : List UInt8}
    (h : ∀ b ∈ body, b ∉ [quote, backslash, lf, cr]) : Quoted quote (body ++ [quote]) := by
  induction body with
  | nil => exact .close
  | cons b body ih =>
    have hb := h b List.mem_cons_self
    simp only [List.mem_cons, List.not_mem_nil, or_false, not_or] at hb
    exact .plain hb.2.1 hb.2.2.1 hb.2.2.2 hb.1 (ih fun c hc => h c (List.mem_cons_of_mem _ hc))

/-- **A quoted text** without quotes, backslashes and line ends is read before everything. -/
theorem TokenKind.heads_string (h : ∀ b ∈ Text.bytes text, b ∉ [0x22, Lexeme.backslash, lf, cr]) :
    TokenKind.string.Heads ("\"" ++ text ++ "\"") rest := by
  refine ⟨.string, ?_, trivial, rfl⟩
  rw [Text.bytes_append, Text.bytes_append, show Text.bytes "\"" = [0x22] by decide +kernel]
  exact .string (Or.inl rfl) (Lexeme.quoted_append h)

end Heads

namespace Piece

open Spelling

variable {rest : List UInt8} {spelling : Spelling}

/-- Spaces are read before a word. -/
theorem reads_spaces {width : Nat} (hwidth : 0 < width) (hbegins : spelling.Begins isIdentPart)
    (h : spelling.Reads rest) :
    Spelling.Reads ((.whitespace, String.ofList (List.replicate width ' ')) :: spelling) rest := by
  refine hbegins.reads_cons (fun b more hpart => ?_) h
  obtain ⟨-, hspace, hcr, hlf⟩ := Lexeme.isIdentPart_plain hpart
  exact TokenKind.heads_spaces hwidth hspace hcr hlf

/-- A blank before a word is read as a blank. -/
theorem reads_space (hbegins : spelling.Begins isIdentPart) (h : spelling.Reads rest) :
    Spelling.Reads ((.whitespace, " ") :: spelling) rest :=
  reads_spaces Nat.one_pos hbegins h

/-- Brackets, commas and semicolons break words. -/
theorem begins_break {kind : TokenKind} (hkind : kind ∈ [.lparen, .rparen, .comma, .semicolon]) :
    Begins isBreak ((kind, kind.spelling?.getD "") :: spelling) := by
  have hall : ∀ kind ∈ [TokenKind.lparen, .rparen, .comma, .semicolon],
      ∃ b ∈ Lexeme.singles, Text.bytes (kind.spelling?.getD "") = [b] ∧ isBreak b = true := by
    decide +kernel
  obtain ⟨b, -, hbytes, hbreak⟩ := hall kind hkind
  exact begins_cons hbytes hbreak

/-- A name is read before a break. -/
theorem name_held {name : String} (h : Text.IsName name) : Held [(.symbol, name)] := by
  refine fun b rest hb => ⟨h.heads ?_, trivial⟩
  simpa [Spelling.text] using (Lexeme.isBreak_plain hb).1

theorem begins_word {word : String} (h : Text.IsWord word) :
    Begins isIdentPart (spellWord word :: spelling) := by
  obtain ⟨b, body, hbytes⟩ := List.exists_cons_of_ne_nil h.ne_nil
  have hpart := h.part b (by simp [hbytes])
  unfold spellWord
  split
  · exact begins_cons hbytes hpart
  · exact begins_cons hbytes hpart

/-- An argument of calls: words with blanks between them. -/
def IsArg (arg : String) : Prop :=
  ∃ words ≠ [], (∀ word ∈ words, Text.IsWord word) ∧ arg = " ".intercalate words

/-- A word is an argument. -/
theorem isArg_of_word {word : String} (h : Text.IsWord word) : IsArg word :=
  ⟨[word], by simp, by simpa using h, String.intercalate_singleton.symm⟩

/-- **An argument** is read before a break, and begins with a word. -/
theorem spellArg_held {arg : String} (h : IsArg arg) :
    Held (spellArg arg) ∧ Begins isIdentPart (spellArg arg) := by
  obtain ⟨words, hne, hwords, rfl⟩ := h
  unfold spellArg
  rw [Text.words_join hwords]
  induction words with
  | nil => exact absurd rfl hne
  | cons word more ih =>
    have hword := hwords word List.mem_cons_self
    cases more with
    | nil => exact ⟨fun b rest hb => ⟨spellWord_heads hword hb, trivial⟩, begins_word hword⟩
    | cons next more =>
      obtain ⟨hheld, hbegins⟩ := ih (by simp) fun other hin =>
        hwords other (List.mem_cons_of_mem _ hin)
      rw [List.map_cons, List.map_cons, List.intersperse_cons_cons]
      refine ⟨fun b rest hb => ⟨?_, reads_space hbegins (hheld b rest hb)⟩, begins_word hword⟩
      rw [text_cons, Text.bytes_append]
      exact spellWord_heads hword (by decide)

/-- **Several arguments** are read before a break. -/
theorem spellArgs_held {args : List String} (h : ∀ arg ∈ args, IsArg arg) :
    Held (spellArgs args) ∧ (args ≠ [] → Begins isIdentPart (spellArgs args)) := by
  unfold spellArgs
  induction args with
  | nil => exact ⟨fun _ _ _ => trivial, fun hne => absurd rfl hne⟩
  | cons arg more ih =>
    obtain ⟨hheld, hbegins⟩ := spellArg_held (h arg List.mem_cons_self)
    cases more with
    | nil => simpa using ⟨hheld, hbegins⟩
    | cons next more =>
      obtain ⟨hmore, hnext⟩ := ih fun other hin => h other (List.mem_cons_of_mem _ hin)
      rw [List.map_cons, List.map_cons, List.intercalate_cons_cons, List.append_assoc]
      refine ⟨fun b rest hb => hheld.append ?_ ⟨?_, ?_⟩, fun _ => hbegins.append _⟩
      · exact begins_break (by simp)
      · exact TokenKind.heads_firm (by simp)
      · exact reads_space (hnext (by simp)) (hmore b rest hb)

/-- **Calls** are read before everything. -/
theorem call_firm {name eol : String} {args : List String} (hname : Text.IsName name)
    (hargs : ∀ arg ∈ args, IsArg arg) : Firm (spell eol (.call name args)) := by
  intro rest
  have hclose : Spelling.Reads [(.rparen, ")")] rest := ⟨TokenKind.heads_firm (by simp), trivial⟩
  refine (name_held hname).append (begins_break (by simp)) ⟨TokenKind.heads_firm (by simp), ?_⟩
  exact (spellArgs_held hargs).1.append (begins_break (by simp)) hclose

/-- A call begins with its name. -/
theorem begins_call {name eol : String} {args : List String} (hname : Text.IsName name) :
    Begins isIdentStart (spell eol (.call name args)) := by
  obtain ⟨b, body, hbytes, hstart⟩ := hname.head
  exact begins_cons hbytes hstart

end Piece

end KernelPrep
