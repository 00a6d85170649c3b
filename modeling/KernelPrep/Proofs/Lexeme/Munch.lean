/-
  KernelPrep.Proofs.Lexeme.Munch — what the scanner cuts off.

  The scanner is described by the pieces it cuts: for each class of lexemes, what bytes it
  is made of, and what may follow it.  Most classes end on their own; an identifier, a
  number or a blank run ends where the next byte does not go on with it, an operator of one
  character where the next one makes no pair of it, and a line comment before a line feed.

  Main definitions:
    * `Lexeme.munch`  — the lexeme at the head of some bytes;
    * `Lexeme.Formed` — the bytes of a lexeme, class by class;
    * `Lexeme.Stops`  — what may follow it;
    * `Lexeme.Opens`  — the class that the first bytes decide on.

  Main statements:
    * `Lexeme.next?_eq`    — the lexeme at a cursor is that of the bytes ahead;
    * `Lexeme.munch_inv`, `Lexeme.Opens.munch_eq` — what the first bytes decide;
    * `Lexeme.munch_sound` — what is cut off is formed as its class says, and stops;
    * `Lexeme.munch_formed` — what is formed as a class says, and stops, is cut off;
    * `Lexeme.Formed.seam` — a text can be cut behind a lexeme.
-/
import Mathlib.Data.Bool.AllAny
import KernelPrep.Lexeme.Scan
import KernelPrep.Proofs.Text.Encoding

namespace KernelPrep.Lexeme

/-! ## §1. The lexeme at the head of some bytes -/

/-- An operator before the byte `peek`, or else a byte of no class. -/
def munchOperator (b peek : UInt8) : Lexeme :=
  if pairs.contains (b, peek) then ⟨.pair b peek, 2⟩
  else if singles.contains b then ⟨.single b, 1⟩
  else ⟨.invalidByte b, 1⟩

/-- Whether a number that begins with these two bytes is hexadecimal. -/
def isHex (b peek : UInt8) : Bool := b == 0x30 && (peek == 0x78 || peek == 0x58)

/-- A number. -/
def munchNumber (b : UInt8) (rest : List UInt8) : Lexeme :=
  ⟨.number, 1 + numberLength (isHex b (rest.headD 0)) b rest⟩

/-- A quoted run. -/
def munchQuoted (quote : UInt8) (rest : List UInt8) : Lexeme :=
  ⟨if (quotedLength quote rest).2 then .string else .unterminatedString,
    1 + (quotedLength quote rest).1⟩

/-- A comment or an operator, behind its slash. -/
def munchSlash (rest : List UInt8) : Lexeme :=
  if rest.headD 0 = 0x2F then
    ⟨.lineComment, 2 + ((rest.drop 1).findIdx? (· == lf)).getD (rest.drop 1).length⟩
  else if rest.headD 0 = 0x2A then
    match commentEnd? (rest.drop 1) with
    | some n => ⟨.blockComment, 2 + n⟩
    | none => ⟨.unterminatedComment, 2 + (rest.drop 1).length⟩
  else munchOperator 0x2F (rest.headD 0)

/-- The lexeme at the head of some bytes. -/
def munch : List UInt8 → Option Lexeme
  | [] => none
  | b :: rest => some <|
    if b = 0 then ⟨.interiorNull, 1⟩
    else if isSpace b then ⟨.whitespace, blankLength (b :: rest)⟩
    else if b = cr then
      if rest.headD 0 = lf then ⟨.newline, 2⟩ else ⟨.whitespace, blankLength (b :: rest)⟩
    else if b = lf then ⟨.newline, 1⟩
    else if isIdentStart b then ⟨.ident, 1 + (rest.takeWhile isIdentPart).length⟩
    else if isDigit b then munchNumber b rest
    else if b = 0x2E then
      if isDigit (rest.headD 0) then munchNumber b rest else munchOperator b (rest.headD 0)
    else if b = 0x22 ∨ b = 0x27 then munchQuoted b rest
    else if b = 0x2F then munchSlash rest
    else munchOperator b (rest.headD 0)

end KernelPrep.Lexeme

namespace KernelPrep

/-- Cursors at one place of one source are the same. -/
theorem Cursor.ext_pos {c c' : Cursor} (hsource : c.source = c'.source) (hpos : c.pos = c'.pos) :
    c = c' := by
  obtain ⟨source, pos, rest, hrest⟩ := c
  obtain ⟨source', pos', rest', hrest'⟩ := c'
  obtain rfl : source = source' := hsource
  obtain rfl : pos = pos' := hpos
  obtain rfl : rest = rest' := hrest.trans hrest'.symm
  rfl

/-- The end is as far away as there are bytes ahead. -/
theorem Cursor.toEnd_eq {c : Cursor} {n : Nat} (hle : c.pos ≤ c.source.length)
    (hn : n = c.rest.length) : c.toEnd = c.advance n := by
  refine Cursor.ext_pos rfl ?_
  show c.source.length = c.pos + n
  rw [hn, c.rest_eq, List.length_drop]
  omega

/-- Two steps ahead are one. -/
theorem Cursor.advance_advance (c : Cursor) (m n : Nat) :
    (c.advance m).advance n = c.advance (m + n) :=
  Cursor.ext_pos rfl (Nat.add_assoc c.pos m n)

/-- The bytes ahead are those behind the place. -/
theorem Cursor.length_rest (c : Cursor) : c.rest.length = c.source.length - c.pos := by
  rw [c.rest_eq, List.length_drop]

namespace Lexeme

section Ahead

variable {c : Cursor} {b : UInt8} {rest : List UInt8}

theorem advance_zero (c : Cursor) : c.advance 0 = c := Cursor.ext_pos rfl rfl

/-- At the end a zero byte is seen. -/
theorem current_of_nil (h : c.rest = []) : c.current = 0 := by
  unfold Cursor.current
  rw [h]
  rfl

/-- The current byte is the first ahead. -/
theorem current_of_rest (h : c.rest = b :: rest) : c.current = b := by
  unfold Cursor.current
  rw [h]
  rfl

/-- The byte behind it is the second ahead, or zero. -/
theorem peek_of_rest (h : c.rest = b :: rest) : c.peek = rest.headD 0 := by
  unfold Cursor.peek
  rw [h]
  rfl

theorem atEnd_of_rest (h : c.rest = b :: rest) : c.atEnd = false := by
  unfold Cursor.atEnd
  rw [h]
  rfl

/-- One step ahead the first byte is gone. -/
theorem rest_advance_one (h : c.rest = b :: rest) : (c.advance 1).rest = rest := by
  rw [Cursor.rest_advance, h]
  rfl

/-- Where bytes are ahead the place is within the source. -/
theorem pos_lt_of_rest (h : c.rest = b :: rest) : c.pos < c.source.length := by
  have hlength := c.length_rest
  rw [h, List.length_cons] at hlength
  omega

/-- A lexeme that ends `n` bytes ahead. -/
theorem between_advance (tag : Tag) (c : Cursor) (n : Nat) :
    between tag c (c.advance n) = (⟨tag, n⟩, c.advance n) := by
  unfold between
  rw [Cursor.pos_advance, Nat.add_sub_cancel_left]

/-- An operator depends on two bytes only. -/
theorem operator_eq (c : Cursor) :
    operator c = (munchOperator c.current c.peek,
      c.advance (munchOperator c.current c.peek).length) := by
  unfold operator munchOperator
  dsimp only
  split
  · exact between_advance _ c 2
  · split
    · exact between_advance _ c 1
    · exact between_advance _ c 1

/-- A blank run depends on the bytes ahead only. -/
theorem blank_eq (c : Cursor) : blank c
    = (⟨.whitespace, blankLength c.rest⟩, c.advance (blankLength c.rest)) :=
  between_advance _ c _

/-- A number depends on the bytes ahead only. -/
theorem number_eq (hrest : c.rest = b :: rest) :
    number c = (munchNumber b rest, c.advance (munchNumber b rest).length) := by
  unfold number
  dsimp only
  rw [current_of_rest hrest, peek_of_rest hrest, hrest]
  exact between_advance _ c _

/-- A quoted run depends on the bytes ahead only. -/
theorem quoted_eq (hrest : c.rest = b :: rest) :
    quoted c = (munchQuoted b rest, c.advance (munchQuoted b rest).length) := by
  unfold quoted
  rw [current_of_rest hrest, hrest]
  exact between_advance _ c _

/-- An identifier depends on the bytes ahead only. -/
theorem ident_eq (hrest : c.rest = b :: rest) :
    between .ident c ((c.advance 1).eatWhile isIdentPart)
      = (⟨.ident, 1 + (rest.takeWhile isIdentPart).length⟩,
        c.advance (1 + (rest.takeWhile isIdentPart).length)) := by
  unfold Cursor.eatWhile
  rw [rest_advance_one hrest, Cursor.advance_advance]
  exact between_advance _ c _

/-- What begins with a slash depends on the bytes ahead only. -/
theorem slash_eq (hrest : c.rest = 0x2F :: rest) :
    slash c = (munchSlash rest, c.advance (munchSlash rest).length) := by
  have hin := pos_lt_of_rest hrest
  have hahead : (c.advance 2).rest = rest.drop 1 := by
    rw [Cursor.rest_advance, hrest]
    rfl
  -- behind the second character there is still a place of the source
  have hle : rest.headD 0 ≠ 0 → (c.advance 2).pos ≤ (c.advance 2).source.length := by
    intro hne
    show c.pos + 2 ≤ c.source.length
    cases rest with
    | nil => exact absurd rfl hne
    | cons x xs =>
      have hlength := congrArg List.length hrest
      rw [c.rest_eq, List.length_drop] at hlength
      simp only [List.length_cons] at hlength
      omega
  unfold slash munchSlash
  rw [peek_of_rest hrest]
  by_cases hline : rest.headD 0 = 0x2F
  · rw [if_pos hline, if_pos hline]
    unfold Cursor.toLineEnd Cursor.seek
    rw [hahead]
    cases hfind : (rest.drop 1).findIdx? (· == lf) with
    | some n =>
      dsimp only
      rw [Cursor.advance_advance]
      exact between_advance _ c (2 + n)
    | none =>
      dsimp only
      rw [Cursor.toEnd_eq (hle (by rw [hline]; decide)) (congrArg List.length hahead).symm,
        Cursor.advance_advance]
      exact between_advance _ c _
  · rw [if_neg hline, if_neg hline]
    by_cases hblock : rest.headD 0 = 0x2A
    · rw [if_pos hblock, if_pos hblock]
      unfold Cursor.pastCommentEnd
      rw [hahead]
      cases hfind : commentEnd? (rest.drop 1) with
      | some n =>
        dsimp only
        rw [Cursor.advance_advance]
        exact between_advance _ c (2 + n)
      | none =>
        dsimp only
        rw [Cursor.toEnd_eq (hle (by rw [hblock]; decide)) (congrArg List.length hahead).symm,
          Cursor.advance_advance]
        exact between_advance _ c _
    · rw [if_neg hblock, if_neg hblock, operator_eq, current_of_rest hrest, peek_of_rest hrest]

end Ahead

/-- **The lexeme at a cursor** is that of the bytes ahead. -/
theorem next?_eq (c : Cursor) :
    next? c = (munch c.rest).map fun lexeme => (lexeme, c.advance lexeme.length) := by
  cases hrest : c.rest with
  | nil =>
    unfold next?
    rw [Cursor.atEnd, hrest]
    rfl
  | cons b rest =>
    unfold next?
    rw [if_neg (by simp [atEnd_of_rest hrest])]
    dsimp only
    unfold munch
    rw [current_of_rest hrest, peek_of_rest hrest, Option.map_some]
    refine congrArg some ?_
    -- a slash is read as such only where there is one
    have hslash : ∀ other : Lexeme × Cursor, (if b = 0x2F then slash c else other)
        = if b = 0x2F then (munchSlash rest, c.advance (munchSlash rest).length) else other := by
      intro other
      by_cases hb : b = 0x2F
      · rw [if_pos hb, if_pos hb, slash_eq (hb ▸ hrest)]
      · rw [if_neg hb, if_neg hb]
    rw [hslash, blank_eq, hrest, number_eq hrest, quoted_eq hrest, ident_eq hrest, operator_eq,
      current_of_rest hrest, peek_of_rest hrest, between_advance, between_advance, between_advance]
    -- both sides decide by the same tests
    let f : Lexeme → Lexeme × Cursor := fun lexeme => (lexeme, c.advance lexeme.length)
    show _ = f (if b = 0 then _ else _)
    simp only [apply_ite f]
    rfl

/-! ## §2. Runs of bytes -/

section Runs

variable {text rest : List UInt8}

/-- A run of bytes ends where the next one does not belong to it. -/
theorem takeWhile_append_stop {p : UInt8 → Bool} (hall : ∀ b ∈ text, p b = true)
    (hstop : ∀ b ∈ rest.head?, p b = false) : (text ++ rest).takeWhile p = text := by
  rw [List.takeWhile_append_of_pos hall]
  cases rest with
  | nil => simp
  | cons b rest => rw [List.takeWhile_cons_of_neg (by simp [hstop b rfl]), List.append_nil]

/-- Every text is cut into the longest run and what does not go on with it. -/
theorem takeWhile_cut (p : UInt8 → Bool) (s : List UInt8) :
    ∃ text rest, s = text ++ rest ∧ s.takeWhile p = text ∧ (∀ b ∈ text, p b = true)
      ∧ ∀ b ∈ rest.head?, p b = false := by
  refine ⟨s.takeWhile p, s.dropWhile p, List.takeWhile_append_dropWhile.symm, rfl,
    fun b hb => List.all_eq_true.mp List.all_takeWhile b hb, fun b hb => ?_⟩
  have hnot := List.head?_dropWhile_not p s
  rw [Option.mem_def.mp hb] at hnot
  simpa using hnot

/-- A line comment runs up to the line feed. -/
theorem lineLength_eq (s : List UInt8) :
    (s.findIdx? (· == lf)).getD s.length = (s.takeWhile (· != lf)).length := by
  induction s with
  | nil => rfl
  | cons b s ih =>
    rw [List.findIdx?_cons]
    by_cases hb : b = lf
    · simp [hb]
    · rw [if_neg (by simpa using hb), List.takeWhile_cons_of_pos (by simpa using hb),
        List.length_cons, List.length_cons, ← ih]
      cases s.findIdx? (· == lf) <;> rfl

/-- The bytes of a blank run. -/
def isBlank (b : UInt8) : Bool := isSpace b || b == cr

/-- A blank run ends before what is not blank; a carriage return at its end must not be the half
    of a line end. -/
theorem blankLength_append (hall : ∀ b ∈ text, isBlank b = true) (hrest : blankLength rest = 0)
    (hlast : text.getLast? = some cr → rest.head? ≠ some lf) :
    blankLength (text ++ rest) = text.length := by
  induction text with
  | nil => exact hrest
  | cons b text ih =>
    have hb := hall b List.mem_cons_self
    have hall' : ∀ x ∈ text, isBlank x = true := fun x hx => hall x (List.mem_cons_of_mem _ hx)
    -- a carriage return counts as blank unless a line feed follows, in the text or behind it
    have hgo : (isSpace b || (b == cr && (text ++ rest).headD 0 != lf)) = true := by
      unfold isBlank at hb
      cases hspace : isSpace b with
      | true => rfl
      | false =>
        have hcr : b = cr := by simpa [hspace] using hb
        cases text with
        | nil =>
          have hnot := hlast (by rw [hcr]; rfl)
          cases rest with
          | nil => simp [hcr, lf]
          | cons x rest => simpa [hcr] using hnot
        | cons x text =>
          have hx := hall' x List.mem_cons_self
          have hne : x ≠ lf := by
            rintro rfl
            simp [isBlank, isSpace, lf, cr] at hx
          simp [hcr, hne]
    have hlast' : text.getLast? = some cr → rest.head? ≠ some lf := by
      intro he
      refine hlast ?_
      rw [List.getLast?_cons, he]
      rfl
    rw [List.cons_append]
    unfold blankLength
    rw [if_pos hgo, ih hall' hlast', List.length_cons]

/-- Every text is cut into its blank run and the rest. -/
theorem blankLength_cut (s : List UInt8) :
    ∃ text rest, s = text ++ rest ∧ blankLength s = text.length
      ∧ (∀ b ∈ text, isBlank b = true) ∧ blankLength rest = 0
      ∧ (text.getLast? = some cr → rest.head? ≠ some lf) := by
  induction s with
  | nil => exact ⟨[], [], rfl, rfl, by simp, rfl, by simp⟩
  | cons b s ih =>
    by_cases hgo : (isSpace b || (b == cr && s.headD 0 != lf)) = true
    · obtain ⟨text, rest, rfl, hlength, hall, hrest, hlast⟩ := ih
      refine ⟨b :: text, rest, rfl, ?_, ?_, hrest, ?_⟩
      · unfold blankLength
        rw [if_pos hgo, hlength, List.length_cons]
      · intro x hx
        rcases List.mem_cons.mp hx with rfl | hx
        · unfold isBlank
          rcases Bool.or_eq_true_iff.mp hgo with h | h
          · simp [h]
          · simp [(Bool.and_eq_true_iff.mp h).1]
        · exact hall x hx
      · intro hcr
        cases text with
        | nil =>
          obtain rfl : b = cr := by simpa using hcr
          -- a carriage return is taken as a blank only when no line feed is behind it
          have hne : rest.headD 0 ≠ lf := by simpa [isSpace, cr] using hgo
          intro hhead
          rw [List.headD_eq_head?_getD, hhead] at hne
          exact hne rfl
        | cons x text =>
          refine hlast ?_
          rw [List.getLast?_cons_cons] at hcr
          exact hcr
    · refine ⟨[], b :: s, rfl, ?_, by simp, ?_, by simp⟩
      · unfold blankLength
        rw [if_neg hgo]
        rfl
      · unfold blankLength
        rw [if_neg hgo]

/-- Whether a number with the last byte `before` goes on with the byte. -/
def goesOn (hex : Bool) (before b : UInt8) : Bool :=
  isIdentPart b || b == 0x2E || isExponentSign hex before b

theorem numberLength_cons (hex : Bool) (before b : UInt8) (rest : List UInt8) :
    numberLength hex before (b :: rest)
      = if goesOn hex before b then numberLength hex b rest + 1 else 0 := rfl

/-- A number ends before a byte that does not go on with it. -/
theorem numberLength_append {hex : Bool} {before : UInt8}
    (htext : numberLength hex before text = text.length)
    (hstop : ∀ b ∈ rest.head?, goesOn hex (text.getLastD before) b = false) :
    numberLength hex before (text ++ rest) = text.length := by
  induction text generalizing before with
  | nil =>
    cases rest with
    | nil => rfl
    | cons b rest =>
      rw [List.nil_append, numberLength_cons, if_neg (by simpa using hstop b rfl)]
      rfl
  | cons b text ih =>
    rw [numberLength_cons] at htext
    rw [List.cons_append, numberLength_cons]
    split at htext
    · rename_i hgo
      rw [if_pos hgo, ih (by simpa using htext), List.length_cons]
      intro x hx
      have hlast := hstop x hx
      rwa [List.getLastD_cons] at hlast
    · simp at htext

/-- Every text is cut into a number and what does not go on with it. -/
theorem numberLength_cut (hex : Bool) (before : UInt8) (s : List UInt8) :
    ∃ text rest, s = text ++ rest ∧ numberLength hex before s = text.length
      ∧ numberLength hex before text = text.length
      ∧ ∀ b ∈ rest.head?, goesOn hex (text.getLastD before) b = false := by
  induction s generalizing before with
  | nil => exact ⟨[], [], rfl, rfl, rfl, by simp⟩
  | cons b s ih =>
    by_cases hgo : goesOn hex before b = true
    · obtain ⟨text, rest, rfl, hlength, htext, hstop⟩ := ih b
      refine ⟨b :: text, rest, rfl, ?_, ?_, ?_⟩
      · rw [numberLength_cons, if_pos hgo, hlength, List.length_cons]
      · rw [numberLength_cons, if_pos hgo, htext, List.length_cons]
      · rw [List.getLastD_cons]
        exact hstop
    · refine ⟨[], b :: s, rfl, ?_, rfl, ?_⟩
      · rw [numberLength_cons, if_neg hgo]
        rfl
      · intro x hx
        obtain rfl : b = x := by simpa using hx
        simpa using hgo

/-- The end of a comment does not depend on what is behind it. -/
theorem commentEnd?_append {n : Nat} (h : commentEnd? text = some n) :
    commentEnd? (text ++ rest) = some n := by
  induction text generalizing n with
  | nil => simp [commentEnd?] at h
  | cons a text ih =>
    cases text with
    | nil => simp [commentEnd?] at h
    | cons b text =>
      rw [commentEnd?] at h
      rw [List.cons_append, List.cons_append, commentEnd?]
      split at h
      · rename_i hend
        rw [if_pos hend]
        exact h
      · rename_i hend
        obtain ⟨m, hm, rfl⟩ := Option.map_eq_some_iff.mp h
        rw [if_neg hend, ← List.cons_append, ih hm]
        rfl

/-- A comment that ends is cut off behind its slash. -/
theorem commentEnd?_cut {s : List UInt8} {n : Nat} (h : commentEnd? s = some n) :
    ∃ text rest, s = text ++ rest ∧ n = text.length ∧ commentEnd? text = some text.length
      ∧ text.getLast? = some 0x2F := by
  induction s generalizing n with
  | nil => simp [commentEnd?] at h
  | cons a s ih =>
    cases s with
    | nil => simp [commentEnd?] at h
    | cons b s =>
      rw [commentEnd?] at h
      split at h
      · rename_i hend
        obtain ⟨rfl, rfl⟩ := hend
        exact ⟨[0x2A, 0x2F], s, rfl, (Option.some.inj h).symm, rfl, rfl⟩
      · rename_i hend
        obtain ⟨m, hm, rfl⟩ := Option.map_eq_some_iff.mp h
        obtain ⟨text, rest, hsplit, rfl, htext, hlast⟩ := ih hm
        cases text with
        | nil => simp [commentEnd?] at htext
        | cons x text =>
          obtain ⟨rfl, rfl⟩ := List.cons.inj hsplit
          refine ⟨a :: b :: text, rest, rfl, rfl, ?_, ?_⟩
          · rw [commentEnd?, if_neg hend, htext]
            rfl
          · rw [List.getLast?_cons_cons]
            exact hlast

/-- A quoted run behind its opening quote.  A backslash takes the byte behind it along, or a
    line end of two bytes. -/
inductive Quoted (quote : UInt8) : List UInt8 → Prop
  | close : Quoted quote [quote]
  | plain {b : UInt8} {rest : List UInt8} : b ≠ backslash → b ≠ lf → b ≠ cr → b ≠ quote →
      Quoted quote rest → Quoted quote (b :: rest)
  | escape {b : UInt8} {rest : List UInt8} : b ≠ cr → Quoted quote rest →
      Quoted quote (backslash :: b :: rest)
  | escapeLine {rest : List UInt8} : Quoted quote rest →
      Quoted quote (backslash :: cr :: lf :: rest)
  | escapeReturn {b : UInt8} {rest : List UInt8} : b ≠ lf → Quoted quote (b :: rest) →
      Quoted quote (backslash :: cr :: b :: rest)

/-- A quoted run ends with its quote. -/
theorem Quoted.getLast? {quote : UInt8} (h : Quoted quote text) : text.getLast? = some quote := by
  induction h with
  | close => rfl
  | plain _ _ _ _ _ ih => rw [List.getLast?_cons, ih]; rfl
  | escape _ _ ih => rw [List.getLast?_cons, List.getLast?_cons, ih]; rfl
  | escapeLine _ ih =>
    rw [List.getLast?_cons, List.getLast?_cons, List.getLast?_cons, ih]
    rfl
  | escapeReturn _ _ ih => rw [List.getLast?_cons, List.getLast?_cons, ih]; rfl

theorem Quoted.ne_nil {quote : UInt8} (h : Quoted quote text) : text ≠ [] := by
  rintro rfl
  exact absurd h.getLast? (by simp)

/-- A quoted run ends with its quote, whatever is behind it. -/
theorem quotedLength_append {quote : UInt8}
    (hquote : quote ≠ backslash ∧ quote ≠ lf ∧ quote ≠ cr) (h : Quoted quote text) :
    quotedLength quote (text ++ rest) = (text.length, true) := by
  induction h with
  | close =>
    rw [List.cons_append, quotedLength.eq_def]
    dsimp only
    rw [if_neg hquote.1, if_neg (not_or.mpr ⟨hquote.2.1, hquote.2.2⟩), if_pos rfl]
    rfl
  | plain hslash hlf hcr hne _ ih =>
    rw [List.cons_append, quotedLength.eq_def]
    dsimp only
    rw [if_neg hslash, if_neg (not_or.mpr ⟨hlf, hcr⟩), if_neg hne, ih]
    rfl
  | escape hcr _ ih =>
    rw [List.cons_append, List.cons_append, quotedLength.eq_def]
    dsimp only
    rw [if_pos rfl, if_neg hcr, ih]
    rfl
  | escapeLine _ ih =>
    rw [List.cons_append, List.cons_append, List.cons_append, quotedLength.eq_def]
    dsimp only
    rw [if_pos rfl, if_pos rfl, if_pos rfl, ih]
    rfl
  -- behind a backslash a carriage return alone counts as one character
  | escapeReturn hlf _ ih =>
    rw [List.cons_append, List.cons_append, List.cons_append, quotedLength.eq_def]
    dsimp only
    rw [if_pos rfl, if_pos rfl, if_neg hlf, ← List.cons_append, ih]
    rfl

/-- A run that is closed is cut off behind its quote. -/
theorem quotedLength_cut {quote : UInt8} {s : List UInt8}
    (h : (quotedLength quote s).2 = true) :
    ∃ text rest, s = text ++ rest ∧ (quotedLength quote s).1 = text.length
      ∧ Quoted quote text := by
  fun_induction quotedLength quote s with
  | case1 => simp at h
  | case2 => simp at h
  | case3 => simp at h
  -- an escaped line end of two bytes is passed as a whole
  | case4 tail n closed heq ih =>
    rw [heq] at ih
    obtain ⟨text, rest, rfl, hlength, htext⟩ := ih h
    exact ⟨backslash :: cr :: lf :: text, rest, rfl, congrArg (· + 3) hlength, .escapeLine htext⟩
  | case5 b tail hlf n closed heq ih =>
    rw [heq] at ih
    obtain ⟨text, rest, hsplit, hlength, htext⟩ := ih h
    obtain ⟨x, text, rfl⟩ := List.exists_cons_of_ne_nil htext.ne_nil
    obtain ⟨rfl, rfl⟩ := List.cons.inj hsplit
    exact ⟨backslash :: cr :: b :: text, rest, rfl, congrArg (· + 2) hlength,
      .escapeReturn hlf htext⟩
  | case6 b tail hcr n closed heq ih =>
    rw [heq] at ih
    obtain ⟨text, rest, rfl, hlength, htext⟩ := ih h
    exact ⟨backslash :: b :: text, rest, rfl, congrArg (· + 2) hlength, .escape hcr htext⟩
  | case7 => simp at h
  -- the quote that closes
  | case8 tail => exact ⟨[quote], tail, rfl, rfl, .close⟩
  | case9 b tail hslash hline hne n closed heq ih =>
    rw [heq] at ih
    obtain ⟨text, rest, rfl, hlength, htext⟩ := ih h
    obtain ⟨hlf, hcr⟩ := not_or.mp hline
    exact ⟨b :: text, rest, rfl, congrArg (· + 1) hlength, .plain hslash hlf hcr hne htext⟩

end Runs

/-! ## §3. Classes -/

/-- The bytes of a lexeme of the class. -/
inductive Formed : Tag → List UInt8 → Prop
  | whitespace {text : List UInt8} : text ≠ [] → (∀ b ∈ text, isBlank b = true) →
      Formed .whitespace text
  | lineFeed : Formed .newline [lf]
  | carriageReturn : Formed .newline [cr, lf]
  | lineComment {body : List UInt8} : lf ∉ body → Formed .lineComment (0x2F :: 0x2F :: body)
  | blockComment {body : List UInt8} : commentEnd? body = some body.length →
      Formed .blockComment (0x2F :: 0x2A :: body)
  | ident {b : UInt8} {body : List UInt8} : isIdentStart b = true →
      (∀ c ∈ body, isIdentPart c = true) → Formed .ident (b :: body)
  | number {b : UInt8} {body : List UInt8} :
      isDigit b = true ∨ (b = 0x2E ∧ isDigit (body.headD 0) = true) →
      numberLength (isHex b (body.headD 0)) b body = body.length → Formed .number (b :: body)
  | string {quote : UInt8} {body : List UInt8} : quote = 0x22 ∨ quote = 0x27 →
      Quoted quote body → Formed .string (quote :: body)
  | single {b : UInt8} : b ∈ singles → Formed (.single b) [b]
  | pair {b c : UInt8} : (b, c) ∈ pairs → Formed (.pair b c) [b, c]

/-- What may follow the bytes of a lexeme. -/
def Stops (text rest : List UInt8) : Tag → Prop
  | .whitespace => blankLength rest = 0 ∧ (text.getLast? = some cr → rest.head? ≠ some lf)
  | .lineComment => ∀ b ∈ rest.head?, b = lf
  | .ident => ∀ b ∈ rest.head?, isIdentPart b = false
  | .number => ∀ b ∈ rest.head?,
      goesOn (isHex (text.headD 0) (text.tail.headD 0)) (text.getLastD 0) b = false
  | .single c => (c, rest.headD 0) ∉ pairs
      ∧ (c = 0x2F → rest.headD 0 ≠ 0x2F ∧ rest.headD 0 ≠ 0x2A)
      ∧ (c = 0x2E → isDigit (rest.headD 0) = false)
  | _ => True

/-! ## §4. What is cut off -/

section Classes

variable {b : UInt8}

/-- The bytes that are blank wherever they stand. -/
theorem isSpace_cases (h : isSpace b = true) : b = 0x20 ∨ b = 0x09 ∨ b = 0x0B ∨ b = 0x0C := by
  simpa [isSpace, or_assoc] using h

/-- The classes that a scan tries first hold neither letters nor digits. -/
theorem isIdentPart_plain (h : isIdentPart b = true) :
    b ≠ 0 ∧ isSpace b = false ∧ b ≠ cr ∧ b ≠ lf := by
  refine ⟨?_, ?_, ?_, ?_⟩
  · rintro rfl
    simp [isIdentPart, isIdentStart, isDigit] at h
  · by_contra hspace
    rcases isSpace_cases (by simpa using hspace) with rfl | rfl | rfl | rfl <;>
      simp [isIdentPart, isIdentStart, isDigit] at h
  · rintro rfl
    simp [isIdentPart, isIdentStart, isDigit, cr] at h
  · rintro rfl
    simp [isIdentPart, isIdentStart, isDigit, lf] at h

/-- An identifier goes on with what it can begin with. -/
theorem isIdentPart_of_start (h : isIdentStart b = true) : isIdentPart b = true := by
  unfold isIdentPart
  rw [h, Bool.true_or]

/-- An identifier goes on with digits. -/
theorem isIdentPart_of_digit (h : isDigit b = true) : isIdentPart b = true := by
  unfold isIdentPart
  rw [h, Bool.or_true]

/-- No identifier begins with a digit. -/
theorem isIdentStart_of_digit (h : isDigit b = true) : isIdentStart b = false := by
  unfold isDigit at h
  unfold isIdentStart
  simp only [Bool.and_eq_true, decide_eq_true_eq, UInt8.le_iff_toNat_le] at h
  rw [Bool.eq_false_iff]
  intro hstart
  simp only [Bool.or_eq_true, Bool.and_eq_true, decide_eq_true_eq, beq_iff_eq,
    UInt8.le_iff_toNat_le] at hstart
  rcases hstart with (⟨hlow, -⟩ | ⟨hlow, -⟩) | rfl
  · have := Nat.le_trans hlow h.2
    simp at this
  · have := Nat.le_trans hlow h.2
    simp at this
  · simp at h

/-- Operators are of none of the other classes. -/
theorem single_plain : ∀ b ∈ singles, b ≠ 0 ∧ isSpace b = false ∧ b ≠ cr ∧ b ≠ lf
    ∧ isIdentStart b = false ∧ isDigit b = false ∧ ¬ (b = 0x22 ∨ b = 0x27) :=
  List.all_iff_forall_prop.mp (by decide)

/-- Every pair of operators begins with an operator, and none with what begins a number or a
    comment. -/
theorem pair_plain : ∀ p ∈ pairs, p.1 ∈ singles ∧ p.1 ≠ 0x2E ∧ p.2 ≠ 0
    ∧ (p.1 = 0x2F → p.2 ≠ 0x2F ∧ p.2 ≠ 0x2A) :=
  List.all_iff_forall_prop.mp (by decide)

end Classes

section Opens

variable {b : UInt8} {rest : List UInt8} {lexeme : Lexeme}

/-- A byte with which nothing but an operator can begin. -/
structure OpensOperator (b : UInt8) : Prop where
  null : b ≠ 0
  space : isSpace b = false
  ret : b ≠ cr
  feed : b ≠ lf
  start : isIdentStart b = false
  digit : isDigit b = false
  quote : ¬ (b = 0x22 ∨ b = 0x27)

/-- With an operator no other class begins. -/
theorem OpensOperator.of_single (h : b ∈ singles) : OpensOperator b := by
  obtain ⟨hnull, hspace, hcr, hlf, hstart, hdigit, hquote⟩ := single_plain b h
  exact ⟨hnull, hspace, hcr, hlf, hstart, hdigit, hquote⟩

/-- The class that the first bytes decide on, with the lexeme it cuts off. -/
inductive Opens (b : UInt8) (rest : List UInt8) : Lexeme → Prop where
  | interiorNull : b = 0 → Opens b rest ⟨.interiorNull, 1⟩
  | blank : isSpace b = true ∨ b = cr ∧ rest.headD 0 ≠ lf →
      Opens b rest ⟨.whitespace, blankLength (b :: rest)⟩
  | carriageReturn : b = cr → rest.headD 0 = lf → Opens b rest ⟨.newline, 2⟩
  | lineFeed : b = lf → Opens b rest ⟨.newline, 1⟩
  | ident : isIdentStart b = true →
      Opens b rest ⟨.ident, 1 + (rest.takeWhile isIdentPart).length⟩
  | number : isDigit b = true ∨ b = 0x2E ∧ isDigit (rest.headD 0) = true →
      Opens b rest (munchNumber b rest)
  | quoted : b = 0x22 ∨ b = 0x27 → Opens b rest (munchQuoted b rest)
  | slash : b = 0x2F → Opens b rest (munchSlash rest)
  | operator : OpensOperator b → b ≠ 0x2F → (b = 0x2E → isDigit (rest.headD 0) = false) →
      Opens b rest (munchOperator b (rest.headD 0))

/-- What is cut off is of the class that the first bytes decide on. -/
theorem munch_inv (h : munch (b :: rest) = some lexeme) : Opens b rest lexeme := by
  unfold munch at h
  obtain rfl := Option.some.inj h
  split
  · exact .interiorNull ‹_›
  rename_i hnull
  split
  · exact .blank (.inl ‹_›)
  rename_i hspace
  split
  · split
    · exact .carriageReturn ‹_› ‹_›
    · exact .blank (.inr ⟨‹_›, ‹_›⟩)
  rename_i hcr
  split
  · exact .lineFeed ‹_›
  rename_i hlf
  split
  · exact .ident ‹_›
  rename_i hstart
  split
  · exact .number (.inl ‹_›)
  rename_i hdigit
  have hoperator : ¬ (b = 0x22 ∨ b = 0x27) → OpensOperator b :=
    OpensOperator.mk hnull (by simpa using hspace) hcr hlf (by simpa using hstart)
      (by simpa using hdigit)
  split
  · rename_i hdot
    split
    · exact .number (.inr ⟨hdot, ‹_›⟩)
    · rename_i hbehind
      -- a dot is neither a quote nor a slash
      refine .operator (hoperator ?_) ?_ fun _ => by simpa using hbehind
      · rw [hdot]
        decide
      · rw [hdot]
        decide
  rename_i hdot
  split
  · exact .quoted ‹_›
  rename_i hquote
  split
  · exact .slash ‹_›
  · exact .operator (hoperator hquote) ‹_› fun he => absurd he hdot

/-- The class that the first bytes decide on is cut off: no class before it takes them. -/
theorem Opens.munch_eq (h : Opens b rest lexeme) : munch (b :: rest) = some lexeme := by
  -- the byte passes each of the questions asked before the one that it answers
  cases h with
  | interiorNull hnull => rw [munch, if_pos hnull]
  | blank hblank =>
    rcases hblank with hspace | ⟨rfl, hfeed⟩
    · have hnull : b ≠ 0 := by
        rintro rfl
        simp [isSpace] at hspace
      rw [munch, if_neg hnull, if_pos hspace]
    · rw [munch, if_neg (by decide), if_neg (by decide), if_pos rfl, if_neg hfeed]
  | carriageReturn hcr hlf =>
    subst hcr
    rw [munch, if_neg (by decide), if_neg (by decide), if_pos rfl, if_pos hlf]
  | lineFeed hlf =>
    subst hlf
    rfl
  | ident hstart =>
    obtain ⟨hnull, hspace, hcr, hlf⟩ := isIdentPart_plain (isIdentPart_of_start hstart)
    rw [munch, if_neg hnull, if_neg (by simp [hspace]), if_neg hcr, if_neg hlf, if_pos hstart]
  | number hnumber =>
    rcases hnumber with hdigit | ⟨rfl, hbehind⟩
    · obtain ⟨hnull, hspace, hcr, hlf⟩ := isIdentPart_plain (isIdentPart_of_digit hdigit)
      rw [munch, if_neg hnull, if_neg (by simp [hspace]), if_neg hcr, if_neg hlf,
        if_neg (by simp [isIdentStart_of_digit hdigit]), if_pos hdigit]
    · rw [munch, if_neg (by decide), if_neg (by decide), if_neg (by decide), if_neg (by decide),
        if_neg (by decide), if_neg (by decide), if_pos rfl, if_pos hbehind]
  | quoted hquote =>
    rcases hquote with rfl | rfl
    · rfl
    · rfl
  | slash hslash =>
    subst hslash
    rfl
  | operator hoperator hslash hdot =>
    rw [munch, if_neg hoperator.null, if_neg (by simp [hoperator.space]), if_neg hoperator.ret,
      if_neg hoperator.feed, if_neg (by simp [hoperator.start]),
      if_neg (by simp [hoperator.digit])]
    by_cases hd : b = 0x2E
    · rw [if_pos hd, hdot hd, if_neg Bool.false_ne_true]
    · rw [if_neg hd, if_neg hoperator.quote, if_neg hslash]

end Opens

/-- An operator that is cut off. -/
theorem munchOperator_sound {b : UInt8} {rest : List UInt8}
    (hslash : b = 0x2F → rest.headD 0 ≠ 0x2F ∧ rest.headD 0 ≠ 0x2A)
    (hdot : b = 0x2E → isDigit (rest.headD 0) = false) {lexeme : Lexeme}
    (hlexeme : munchOperator b (rest.headD 0) = lexeme) (hok : lexeme.tag.isError = false) :
    ∃ text rest', b :: rest = text ++ rest' ∧ lexeme.length = text.length
      ∧ Formed lexeme.tag text ∧ Stops text rest' lexeme.tag := by
  subst hlexeme
  unfold munchOperator at hok ⊢
  by_cases hpair : pairs.contains (b, rest.headD 0) = true
  · rw [if_pos hpair]
    have hmem : (b, rest.headD 0) ∈ pairs := by simpa using hpair
    cases rest with
    | nil => exact absurd rfl (pair_plain _ hmem).2.2.1
    | cons c rest => exact ⟨[b, c], rest, rfl, rfl, .pair hmem, trivial⟩
  · rw [if_neg hpair] at hok ⊢
    by_cases hsingle : singles.contains b = true
    · rw [if_pos hsingle]
      refine ⟨[b], rest, rfl, rfl, .single (by simpa using hsingle), ?_, hslash, hdot⟩
      simpa using hpair
    · rw [if_neg hsingle] at hok
      exact Bool.noConfusion hok

/-- The byte behind the first of a number is looked at whether it belongs to the number or
    not. -/
theorem headD_of_stop {hex : Bool} {b : UInt8} {text rest : List UInt8}
    (hstop : ∀ c ∈ rest.head?, goesOn hex (text.getLastD b) c = false) :
    isHex b ((text ++ rest).headD 0) = isHex b (text.headD 0)
      ∧ (isDigit ((text ++ rest).headD 0) = true → isDigit (text.headD 0) = true) := by
  cases text with
  | cons c text => exact ⟨rfl, id⟩
  | nil =>
    cases rest with
    | nil => exact ⟨rfl, id⟩
    | cons c rest =>
      have hnot := hstop c rfl
      unfold goesOn at hnot
      -- nothing is read behind `b`, and what stops it is no `x`, `X` or digit
      have hpart : isIdentPart c = false := by
        simp only [Bool.or_eq_false_iff] at hnot
        exact hnot.1.1
      refine ⟨?_, ?_⟩
      · have hx : ¬ c = 0x78 := by
          rintro rfl
          simp [isIdentPart, isIdentStart] at hpart
        have hX : ¬ c = 0x58 := by
          rintro rfl
          simp [isIdentPart, isIdentStart] at hpart
        simp [isHex, hx, hX]
      · intro hdigit
        have hyes := isIdentPart_of_digit hdigit
        rw [List.nil_append, List.headD_cons, hpart] at hyes
        simp at hyes

/-- A number that is cut off is formed as one, and stops. -/
theorem munchNumber_sound {b : UInt8} {rest : List UInt8}
    (hdigit : isDigit b = true ∨ (b = 0x2E ∧ isDigit (rest.headD 0) = true)) :
    ∃ text rest', b :: rest = text ++ rest' ∧ (munchNumber b rest).length = text.length
      ∧ Formed .number text ∧ Stops text rest' .number := by
  obtain ⟨text, rest', hsplit, hlength, htext, hstop⟩ :=
    numberLength_cut (isHex b (rest.headD 0)) b rest
  rw [hsplit] at hdigit htext hlength hstop ⊢
  obtain ⟨hhex, hhead⟩ := headD_of_stop hstop
  rw [hhex] at htext hstop
  refine ⟨b :: text, rest', rfl, ?_, .number (hdigit.imp id fun h => ⟨h.1, hhead h.2⟩) htext, ?_⟩
  · rw [munchNumber, hlength, List.length_cons, Nat.add_comm]
  · show ∀ c ∈ rest'.head?, goesOn _ ((b :: text).getLastD 0) c = false
    rw [List.getLastD_cons]
    exact hstop

/-- A comment that is closed, or else an operator, is cut off behind a slash. -/
theorem munchSlash_sound {rest : List UInt8} (hok : (munchSlash rest).tag.isError = false) :
    ∃ text rest', 0x2F :: rest = text ++ rest' ∧ (munchSlash rest).length = text.length
      ∧ Formed (munchSlash rest).tag text ∧ Stops text rest' (munchSlash rest).tag := by
  unfold munchSlash at hok ⊢
  -- the byte behind the slash decides between the comments and the operator
  by_cases hline : rest.headD 0 = 0x2F
  · rw [if_pos hline, lineLength_eq]
    cases rest with
    | nil => simp at hline
    | cons c rest =>
      obtain rfl : c = 0x2F := hline
      obtain ⟨body, rest', rfl, hbody, hall, hstop⟩ := takeWhile_cut (· != lf) rest
      refine ⟨0x2F :: 0x2F :: body, rest', rfl, ?_, .lineComment ?_, ?_⟩
      · rw [List.drop_one, List.tail_cons, hbody, List.length_cons, List.length_cons]
        exact Nat.add_comm 2 _
      · intro hin
        simpa using hall lf hin
      · intro b hb
        simpa using hstop b hb
  · rw [if_neg hline] at hok ⊢
    by_cases hblock : rest.headD 0 = 0x2A
    · rw [if_pos hblock] at hok ⊢
      cases rest with
      | nil => simp at hblock
      | cons c rest =>
        obtain rfl : c = 0x2A := hblock
        rw [List.drop_one, List.tail_cons] at hok ⊢
        cases hend : commentEnd? rest with
        | none =>
          rw [hend] at hok
          exact Bool.noConfusion hok
        | some n =>
          obtain ⟨body, rest', rfl, rfl, hbody, -⟩ := commentEnd?_cut hend
          refine ⟨0x2F :: 0x2A :: body, rest', rfl, ?_, .blockComment hbody, trivial⟩
          rw [List.length_cons, List.length_cons]
          exact Nat.add_comm 2 _
    · rw [if_neg hblock] at hok ⊢
      exact munchOperator_sound (fun _ => ⟨hline, hblock⟩) (by simp) rfl hok

/-- A quoted run that is closed is formed as one. -/
theorem munchQuoted_sound {b : UInt8} {rest : List UInt8} (hquote : b = 0x22 ∨ b = 0x27)
    (hok : (munchQuoted b rest).tag.isError = false) :
    ∃ text rest', b :: rest = text ++ rest' ∧ (munchQuoted b rest).length = text.length
      ∧ Formed (munchQuoted b rest).tag text ∧ Stops text rest' (munchQuoted b rest).tag := by
  unfold munchQuoted at hok ⊢
  cases hclosed : (quotedLength b rest).2 with
  | false =>
    rw [hclosed] at hok
    exact Bool.noConfusion hok
  | true =>
    obtain ⟨body, rest', rfl, hlength, hbody⟩ := quotedLength_cut hclosed
    refine ⟨b :: body, rest', rfl, ?_, .string hquote hbody, trivial⟩
    rw [List.length_cons, hlength]
    exact Nat.add_comm 1 _

/-- A blank run has a byte. -/
theorem blankLength_pos {b : UInt8} {rest : List UInt8}
    (h : isSpace b = true ∨ b = cr ∧ rest.headD 0 ≠ lf) : 0 < blankLength (b :: rest) := by
  unfold blankLength
  rw [if_pos]
  · exact Nat.succ_pos _
  · rcases h with h | ⟨rfl, h⟩
    · simp [h]
    · rw [bne_iff_ne.mpr h]
      decide

/-- A blank run that is cut off is formed as one, and stops. -/
theorem munchBlank_sound {b : UInt8} {rest : List UInt8}
    (h : isSpace b = true ∨ b = cr ∧ rest.headD 0 ≠ lf) :
    ∃ text rest', b :: rest = text ++ rest' ∧ blankLength (b :: rest) = text.length
      ∧ Formed .whitespace text ∧ Stops text rest' .whitespace := by
  have hpos := blankLength_pos h
  obtain ⟨text, rest', hsplit, hlength, hall, hrest, hlast⟩ := blankLength_cut (b :: rest)
  rw [hlength] at hpos
  exact ⟨text, rest', hsplit, hlength, .whitespace (List.length_pos_iff.mp hpos) hall, hrest,
    hlast⟩

/-- **What is cut off** is formed as its class says, and stops there. -/
theorem munch_sound {s : List UInt8} {lexeme : Lexeme} (h : munch s = some lexeme)
    (hok : lexeme.tag.isError = false) :
    ∃ text rest, s = text ++ rest ∧ lexeme.length = text.length ∧ Formed lexeme.tag text
      ∧ Stops text rest lexeme.tag := by
  cases s with
  | nil => simp [munch] at h
  | cons b s =>
    -- one lemma for each way in which a lexeme opens
    cases munch_inv h with
    | interiorNull => exact Bool.noConfusion hok
    | blank hblank => exact munchBlank_sound hblank
    | carriageReturn hcr hlf =>
      cases s with
      | nil => simp [lf] at hlf
      | cons c s =>
        obtain rfl : c = lf := hlf
        exact ⟨[cr, lf], s, by rw [hcr]; rfl, rfl, .carriageReturn, trivial⟩
    | lineFeed hlf => exact ⟨[lf], s, by rw [hlf]; rfl, rfl, .lineFeed, trivial⟩
    | ident hstart =>
      obtain ⟨body, rest, rfl, hbody, hall, hstop⟩ := takeWhile_cut isIdentPart s
      refine ⟨b :: body, rest, rfl, ?_, .ident hstart hall, hstop⟩
      rw [hbody, List.length_cons, Nat.add_comm]
    | number hnumber => exact munchNumber_sound hnumber
    | quoted hquote => exact munchQuoted_sound hquote hok
    | slash hslash =>
      subst hslash
      exact munchSlash_sound hok
    | operator _ hslash hdot =>
      exact munchOperator_sound (fun he => absurd he hslash) hdot rfl hok

/-! ## §5. What is formed -/

section Formed

variable {text rest : List UInt8}

/-- A blank run is cut off. -/
theorem munch_blank (hne : text ≠ []) (hall : ∀ b ∈ text, isBlank b = true)
    (hrest : blankLength rest = 0) (hlast : text.getLast? = some cr → rest.head? ≠ some lf) :
    munch (text ++ rest) = some ⟨.whitespace, text.length⟩ := by
  have hlength := blankLength_append hall hrest hlast
  obtain ⟨b, body, rfl⟩ := List.exists_cons_of_ne_nil hne
  have hb := hall b List.mem_cons_self
  rw [List.cons_append] at hlength ⊢
  have hopens : isSpace b = true ∨ b = cr ∧ (body ++ rest).headD 0 ≠ lf := by
    by_cases hspace : isSpace b = true
    · exact .inl hspace
    · refine .inr ⟨by simpa [isBlank, hspace] using hb, fun hfeed => ?_⟩
      -- were there a line feed behind it, nothing would be cut off
      unfold blankLength at hlength
      rw [hfeed, if_neg (by simp [hspace])] at hlength
      simp at hlength
  rw [(Opens.blank hopens).munch_eq, hlength]

/-- A number is cut off. -/
theorem munch_number {b : UInt8}
    (hdigit : isDigit b = true ∨ (b = 0x2E ∧ isDigit (text.headD 0) = true))
    (htext : numberLength (isHex b (text.headD 0)) b text = text.length)
    (hstop : ∀ c ∈ rest.head?, goesOn (isHex b (text.headD 0)) (text.getLastD b) c = false) :
    munch (b :: (text ++ rest)) = some ⟨.number, (b :: text).length⟩ := by
  have hnumber : munchNumber b (text ++ rest) = ⟨.number, (b :: text).length⟩ := by
    unfold munchNumber
    rw [(headD_of_stop hstop).1, numberLength_append htext hstop, List.length_cons,
      Nat.add_comm]
  rw [← hnumber]
  refine (Opens.number (hdigit.imp_right fun ⟨hdot, hbehind⟩ => ⟨hdot, ?_⟩)).munch_eq
  cases text with
  | nil => simp [isDigit] at hbehind
  | cons c text => exact hbehind

/-- A quoted run is cut off. -/
theorem munch_string {quote : UInt8} (hquote : quote = 0x22 ∨ quote = 0x27)
    (htext : Quoted quote text) :
    munch (quote :: (text ++ rest)) = some ⟨.string, (quote :: text).length⟩ := by
  have hends : quote ≠ backslash ∧ quote ≠ lf ∧ quote ≠ cr := by
    rcases hquote with rfl | rfl <;> decide
  rw [(Opens.quoted hquote).munch_eq]
  unfold munchQuoted
  rw [quotedLength_append hends htext, List.length_cons, Nat.add_comm]
  rfl

/-- A slash is cut off with what is behind it. -/
theorem munch_slash (rest : List UInt8) : munch (0x2F :: rest) = some (munchSlash rest) :=
  (Opens.slash rfl).munch_eq

/-- Where no other class begins, an operator does. -/
theorem munch_operator {b : UInt8} {rest : List UInt8} (hb : b ∈ singles)
    (hslash : b = 0x2F → rest.headD 0 ≠ 0x2F ∧ rest.headD 0 ≠ 0x2A)
    (hdot : b = 0x2E → isDigit (rest.headD 0) = false) :
    munch (b :: rest) = some (munchOperator b (rest.headD 0)) := by
  by_cases hs : b = 0x2F
  · rw [hs, munch_slash, munchSlash, if_neg (hslash hs).1, if_neg (hslash hs).2]
  · exact (Opens.operator (.of_single hb) hs hdot).munch_eq

/-- **What is formed** as a class says, and stops there, is cut off. -/
theorem munch_formed {tag : Tag} (h : Formed tag text) (hstop : Stops text rest tag) :
    munch (text ++ rest) = some ⟨tag, text.length⟩ := by
  cases h with
  -- what opens each class decides on it, and the stop on where it ends
  | whitespace hne hall => exact munch_blank hne hall hstop.1 hstop.2
  | lineFeed => rfl
  | carriageReturn => rfl
  | @lineComment body hbody =>
    rw [List.cons_append, munch_slash, munchSlash, List.cons_append, List.headD_cons, if_pos rfl,
      lineLength_eq, List.drop_one, List.tail_cons, takeWhile_append_stop]
    · rw [Nat.add_comm]
      rfl
    · intro b hb
      rw [bne_iff_ne]
      rintro rfl
      exact hbody hb
    · intro b hb
      simpa using hstop b hb
  | @blockComment body hbody =>
    rw [List.cons_append, munch_slash, munchSlash, List.cons_append, List.headD_cons,
      if_neg (by decide), if_pos rfl, List.drop_one, List.tail_cons, commentEnd?_append hbody]
    dsimp only
    rw [Nat.add_comm]
    rfl
  | @ident b body hb hbody =>
    rw [List.cons_append, (Opens.ident hb).munch_eq, takeWhile_append_stop hbody hstop,
      List.length_cons, Nat.add_comm]
  | @number b body hdigit hbody =>
    refine munch_number hdigit hbody fun c hc => ?_
    have hlast := hstop c hc
    rwa [List.getLastD_cons] at hlast
  | string hquote hbody => exact munch_string hquote hbody
  | @single b hb =>
    obtain ⟨hpair, hslash, hdot⟩ := hstop
    rw [List.singleton_append, munch_operator hb hslash hdot, munchOperator,
      if_neg (by simpa using hpair), if_pos (by simpa using hb)]
    rfl
  | @pair b c hpair =>
    obtain ⟨hb, hdot, -, hslash⟩ := pair_plain _ hpair
    have hoperator : munch (b :: c :: rest) = some (munchOperator b c) :=
      munch_operator hb hslash fun he => absurd he hdot
    show munch (b :: c :: rest) = _
    rw [hoperator, munchOperator, if_pos (by simpa using hpair)]
    rfl

/-- No lexeme is empty. -/
theorem Formed.ne_nil {tag : Tag} (h : Formed tag text) : text ≠ [] := by
  cases h with
  | whitespace hne _ => exact hne
  | _ => exact List.cons_ne_nil _ _

/-- What starts with a letter is an identifier. -/
theorem Formed.tag_of_start {tag : Tag} (h : Formed tag text)
    (hstart : isIdentStart (text.headD 0) = true) : tag = .ident := by
  obtain ⟨-, hspace, hcr, hlf⟩ := isIdentPart_plain (isIdentPart_of_start hstart)
  -- no other lexeme begins with a letter
  cases h with
  | ident hb hbody => rfl
  | whitespace hne hall =>
    obtain ⟨b, rest, rfl⟩ := List.exists_cons_of_ne_nil hne
    have hblank := hall b List.mem_cons_self
    rw [List.headD_cons] at hspace hcr
    simp [isBlank, hspace, hcr] at hblank
  | lineFeed => simp at hlf
  | carriageReturn => simp at hcr
  | lineComment hbody => simp [isIdentStart] at hstart
  | blockComment hbody => simp [isIdentStart] at hstart
  | number hb hbody =>
    rw [List.headD_cons] at hstart
    rcases hb with hdigit | ⟨rfl, -⟩
    · rw [isIdentStart_of_digit hdigit] at hstart
      exact Bool.noConfusion hstart
    · simp [isIdentStart] at hstart
  | string hquote hbody =>
    rw [List.headD_cons] at hstart
    rcases hquote with rfl | rfl <;> simp [isIdentStart] at hstart
  | single hb =>
    rw [List.headD_cons, (single_plain _ hb).2.2.2.2.1] at hstart
    exact Bool.noConfusion hstart
  | pair hb =>
    rw [List.headD_cons, (single_plain _ (pair_plain _ hb).1).2.2.2.2.1] at hstart
    exact Bool.noConfusion hstart

/-- Identifiers are made of ASCII bytes. -/
theorem isAscii_of_identPart {b : UInt8} (h : isIdentPart b = true) : Text.isAscii b = true := by
  unfold isIdentPart isIdentStart isDigit at h
  unfold Text.isAscii
  simp only [Bool.or_eq_true, Bool.and_eq_true, decide_eq_true_eq, beq_iff_eq,
    UInt8.le_iff_toNat_le, UInt8.lt_iff_toNat_lt] at h ⊢
  rcases h with ((⟨-, h⟩ | ⟨-, h⟩) | rfl) | ⟨-, h⟩
  · exact Nat.lt_of_le_of_lt h (by decide)
  · exact Nat.lt_of_le_of_lt h (by decide)
  · decide
  · exact Nat.lt_of_le_of_lt h (by decide)

/-- A number goes on with letters, digits, underscores, dots and signs. -/
theorem goesOn_cases {hex : Bool} {before b : UInt8} (h : goesOn hex before b = true) :
    isIdentPart b = true ∨ b = 0x2E ∨ b = 0x2B ∨ b = 0x2D := by
  unfold goesOn isExponentSign at h
  simp only [Bool.or_eq_true, Bool.and_eq_true, beq_iff_eq] at h
  tauto

/-- What holds of all bytes that a number goes on with holds of its bytes behind the first. -/
theorem forall_of_numberLength {hex : Bool} {before : UInt8} {p : UInt8 → Prop}
    (hp : ∀ before b, goesOn hex before b = true → p b)
    (h : numberLength hex before text = text.length) : ∀ b ∈ text, p b := by
  induction text generalizing before with
  | nil => simp
  | cons b text ih =>
    rw [numberLength_cons] at h
    split at h
    · rename_i hgo
      exact List.forall_mem_cons.mpr ⟨hp _ b hgo, ih (by simpa using h)⟩
    · simp at h

/-- Behind its first byte a number is made of ASCII bytes. -/
theorem isAscii_of_numberLength {hex : Bool} {before : UInt8}
    (h : numberLength hex before text = text.length) : ∀ b ∈ text, Text.isAscii b = true := by
  refine forall_of_numberLength (fun _ b hgo => ?_) h
  rcases goesOn_cases hgo with hpart | rfl | rfl | rfl
  · exact isAscii_of_identPart hpart
  · decide
  · decide
  · decide

/-- A block comment ends with a slash. -/
theorem getLast?_of_commentEnd? (h : commentEnd? text = some text.length) :
    text.getLast? = some 0x2F := by
  obtain ⟨body, rest, hsplit, hlength, -, hslash⟩ := commentEnd?_cut h
  obtain rfl : rest = [] := by
    have hsum := congrArg List.length hsplit
    rw [List.length_append, hlength] at hsum
    exact List.length_eq_zero_iff.mp (by omega)
  rwa [hsplit, List.append_nil]

/-- All classes but line comments end with an ASCII byte. -/
theorem Formed.last_isAscii {tag : Tag} (h : Formed tag text) (htag : tag ≠ .lineComment) :
    ∃ b, text.getLast? = some b ∧ Text.isAscii b = true := by
  have hlast := List.getLast?_eq_some_getLast h.ne_nil
  -- most classes are made of ASCII bytes throughout
  have hall : ∀ {l : List UInt8} (hne : l ≠ []), (∀ b ∈ l, Text.isAscii b = true) →
      Text.isAscii (l.getLast hne) = true := fun hne hall => hall _ (List.getLast_mem hne)
  cases h with
  | whitespace hne hblank =>
    refine ⟨_, hlast, hall hne fun b hb => ?_⟩
    have hcases := hblank b hb
    unfold isBlank at hcases
    rcases Bool.or_eq_true_iff.mp hcases with hspace | hcr
    · rcases isSpace_cases hspace with rfl | rfl | rfl | rfl <;> decide
    · rw [beq_iff_eq.mp hcr]
      decide
  | lineFeed => exact ⟨_, rfl, by decide⟩
  | carriageReturn => exact ⟨_, rfl, by decide⟩
  | lineComment _ => exact absurd rfl htag
  | @blockComment body hend =>
    refine ⟨0x2F, ?_, by decide⟩
    rw [List.getLast?_cons, List.getLast?_cons, getLast?_of_commentEnd? hend]
    rfl
  | ident hb hbody =>
    refine ⟨_, hlast, hall (List.cons_ne_nil _ _) (List.forall_mem_cons.mpr ⟨?_, ?_⟩)⟩
    · exact isAscii_of_identPart (isIdentPart_of_start hb)
    · exact fun c hc => isAscii_of_identPart (hbody c hc)
  | number hdigit hbody =>
    refine ⟨_, hlast, hall (List.cons_ne_nil _ _) (List.forall_mem_cons.mpr
      ⟨?_, isAscii_of_numberLength hbody⟩)⟩
    rcases hdigit with hdigit | ⟨rfl, -⟩
    · exact isAscii_of_identPart (isIdentPart_of_digit hdigit)
    · decide
  | @string quote body hquote hbody =>
    refine ⟨quote, ?_, ?_⟩
    · rw [List.getLast?_cons, hbody.getLast?]
      rfl
    · rcases hquote with rfl | rfl <;> decide
  | single hb =>
    have hsingles : ∀ b ∈ singles, Text.isAscii b = true :=
      List.all_iff_forall_prop.mp (by decide)
    exact ⟨_, rfl, hsingles _ hb⟩
  | @pair b c hpair =>
    have hpairs : ∀ p ∈ pairs, Text.isAscii p.2 = true :=
      List.all_iff_forall_prop.mp (by decide)
    exact ⟨c, rfl, hpairs _ hpair⟩

/-- **A text can be cut** behind a lexeme. -/
theorem Formed.seam {tag : Tag} (h : Formed tag text) (hstop : Stops text rest tag) :
    Text.Seam text rest := by
  by_cases htag : tag = .lineComment
  · subst htag
    cases rest with
    | nil => exact Or.inr (Or.inl rfl)
    | cons b rest =>
      refine Or.inr (Or.inr (Or.inr ⟨b, rfl, ?_⟩))
      rw [hstop b rfl]
      decide
  · exact Or.inr (Or.inr (Or.inl (h.last_isAscii htag)))

end Formed

end Lexeme

end KernelPrep
