/-
  KernelPrep.Proofs.Lexeme.Turns — the scanner, one movement at a time.

  Within a lexeme the cursor moves byte by byte over a class, or jumps to a byte that is
  searched for, and most of these loops do not look where the source ends: they stop because a
  zero byte is read there.  So the scanner is taken apart into turns, each with one movement at
  most.  A turn that moves on has read a byte that is not zero, or has searched no further than
  the end, and so no movement leaves the source.

  Main definitions:
    * `Lexeme.Mode`, `Lexeme.Scanner` — what the scanner is at, and where;
    * `Lexeme.enter`, `Lexeme.turn`   — its first movement within a lexeme, and each other one;
    * `Lexeme.call`, `Lexeme.after`, `Lexeme.moment` — calls for lexemes, and the cursor behind
      and within them;
    * `Lexeme.Covered` — calls that cover the source.

  Main statements:
    * `Lexeme.turn_within`      — one movement stays in the source;
    * `Lexeme.exists_turns`     — the movements end with the lexeme that is next;
    * `Lexeme.calls_cover`      — calls one after the other cover the source.
-/
import Mathlib.Algebra.Ring.Nat
import Mathlib.Logic.Function.Iterate
import KernelPrep.Proofs.Lexeme.Munch

namespace KernelPrep

/-! ## §1. Bytes that are not zero -/

namespace Cursor

variable {c : Cursor}

/-- A byte that is not zero is in the source. -/
theorem lt_of_current (h : c.current ≠ 0) : c.pos + 1 ≤ c.source.length := by
  have hlength := c.length_rest
  unfold current at h
  cases hrest : c.rest with
  | nil => exact absurd (by rw [hrest]; rfl) h
  | cons b rest =>
    rw [hrest, List.length_cons] at hlength
    omega

/-- So is one that comes behind another. -/
theorem lt_of_peek (h : c.peek ≠ 0) : c.pos + 2 ≤ c.source.length := by
  have hlength := c.length_rest
  unfold peek at h
  cases hrest : c.rest.drop 1 with
  | nil => exact absurd (by rw [hrest]; rfl) h
  | cons b rest =>
    have hdrop := congrArg List.length hrest
    rw [List.length_drop, List.length_cons] at hdrop
    omega

/-- Where the source is not at its end there is a byte. -/
theorem lt_of_not_atEnd (h : c.atEnd = false) : c.pos + 1 ≤ c.source.length := by
  have := mt c.atEnd_iff.mpr (by simp [h])
  omega

/-- Within the source, not before another cursor. -/
structure Within (c d : Cursor) : Prop where
  source : d.source = c.source
  behind : c.pos ≤ d.pos
  inside : d.pos ≤ c.source.length

/-- A cursor in the source is within it. -/
theorem Within.refl (h : c.pos ≤ c.source.length) : c.Within c := ⟨rfl, Nat.le_refl _, h⟩

/-- Behind a cursor that is behind another one. -/
theorem Within.trans {d e : Cursor} (h : c.Within d) (h' : d.Within e) : c.Within e :=
  ⟨h'.source.trans h.source, Nat.le_trans h.behind h'.behind, h.source ▸ h'.inside⟩

/-- A step that the source has bytes for stays within it. -/
theorem within_advance {n : Nat} (h : c.pos + n ≤ c.source.length) : c.Within (c.advance n) :=
  ⟨rfl, Nat.le_add_right _ _, h⟩

/-- The end of the source is within it. -/
theorem within_toEnd (h : c.pos ≤ c.source.length) : c.Within c.toEnd := ⟨rfl, h, Nat.le_refl _⟩

/-- A search stops at a byte of the source, or at the end. -/
theorem within_seek (p : UInt8 → Bool) (h : c.pos ≤ c.source.length) : c.Within (c.seek p) := by
  unfold seek
  split
  · rename_i offset hfind
    obtain ⟨hlt, -⟩ := List.findIdx?_eq_some_iff_getElem.mp hfind
    have hlength := c.length_rest
    exact within_advance (by omega)
  · exact within_toEnd h

end Cursor

namespace Lexeme

/-- A comment ends within the bytes that are searched. -/
theorem commentEnd?_le {s : List UInt8} {n : Nat} (h : commentEnd? s = some n) : n ≤ s.length := by
  induction s using commentEnd?.induct generalizing n with
  | case1 => simp [commentEnd?] at h
  | case2 => simp [commentEnd?] at h
  | case3 a b rest hclose =>
    rw [commentEnd?, if_pos hclose] at h
    obtain rfl := Option.some.inj h
    simp
  | case4 a b rest hclose ih =>
    rw [commentEnd?, if_neg hclose] at h
    obtain ⟨m, hm, rfl⟩ := Option.map_eq_some_iff.mp h
    simpa using ih hm

end Lexeme

/-- The search for the end of a comment stays within the source. -/
theorem Cursor.within_pastCommentEnd {c : Cursor} (h : c.pos ≤ c.source.length) :
    c.Within c.pastCommentEnd.2 := by
  unfold pastCommentEnd
  split
  · rename_i n hfind
    have hle := Lexeme.commentEnd?_le hfind
    have hlength := c.length_rest
    exact within_advance (by omega)
  · exact within_toEnd h

namespace Lexeme

/-! ## §2. Turns -/

/-- What the scanner is at within a lexeme. -/
inductive Mode where
  | blank
  | ident
  /-- A number, with the byte before the cursor. -/
  | number (hex : Bool) (before : UInt8)
  /-- A quoted run, in which the next byte of interest is to be searched. -/
  | quoted (quote : UInt8)
  /-- A byte that can end or escape a quoted run, or the end of the source. -/
  | delimiter (quote : UInt8)
  /-- Behind a backslash in a quoted run. -/
  | escape (quote : UInt8)
  | lineComment
  | blockComment
  /-- The lexeme is read. -/
  | done (tag : Tag)
deriving DecidableEq, Repr

/-- The scanner within a lexeme. -/
structure Scanner where
  mode : Mode
  cursor : Cursor

/-- The scanner at an operator. -/
def enterOperator (c : Cursor) : Scanner :=
  let b := c.current
  if pairs.contains (b, c.peek) then ⟨.done (.pair b c.peek), c.advance 2⟩
  else if singles.contains b then ⟨.done (.single b), c.advance 1⟩
  else ⟨.done (.invalidByte b), c.advance 1⟩

/-- The scanner at a number. -/
def enterNumber (c : Cursor) : Scanner := ⟨.number (isHex c.current c.peek) c.current, c.advance 1⟩

/-- The scanner behind its first movement within the lexeme at the cursor, which is not at the
    end. -/
def enter (c : Cursor) : Scanner :=
  let b := c.current
  if b = 0 then ⟨.done .interiorNull, c.advance 1⟩
  else if isSpace b then ⟨.blank, c⟩
  else if b = cr then if c.peek = lf then ⟨.done .newline, c.advance 2⟩ else ⟨.blank, c⟩
  else if b = lf then ⟨.done .newline, c.advance 1⟩
  else if isIdentStart b then ⟨.ident, c.advance 1⟩
  else if isDigit b then enterNumber c
  else if b = 0x2E then if isDigit c.peek then enterNumber c else enterOperator c
  else if b = 0x22 ∨ b = 0x27 then ⟨.quoted b, c.advance 1⟩
  else if b = 0x2F then
    if c.peek = 0x2F then ⟨.lineComment, c.advance 2⟩
    else if c.peek = 0x2A then ⟨.blockComment, c.advance 2⟩
    else enterOperator c
  else enterOperator c

/-- The scanner after one more turn, which moves the cursor once at most. -/
def turn : Scanner → Scanner
  | ⟨.blank, c⟩ =>
    if isSpace c.current || (c.current == cr && c.peek != lf) then ⟨.blank, c.advance 1⟩
    else ⟨.done .whitespace, c⟩
  | ⟨.ident, c⟩ =>
    if !c.atEnd && isIdentPart c.current then ⟨.ident, c.advance 1⟩ else ⟨.done .ident, c⟩
  | ⟨.number hex before, c⟩ =>
    let b := c.current
    if isIdentPart b || b == 0x2E || isExponentSign hex before b then
      ⟨.number hex b, c.advance 1⟩
    else ⟨.done .number, c⟩
  | ⟨.quoted quote, c⟩ => ⟨.delimiter quote, (c.toQuoteDelimiter quote).2⟩
  | ⟨.delimiter quote, c⟩ =>
    let b := c.current
    if b = backslash then ⟨.escape quote, c.advance 1⟩
    else if b = lf ∨ b = cr ∨ b = 0 then ⟨.done .unterminatedString, c⟩
    else ⟨.done .string, c.advance 1⟩
  | ⟨.escape quote, c⟩ =>
    if c.current = cr ∧ c.peek = lf then ⟨.quoted quote, c.advance 2⟩
    else if !c.atEnd then ⟨.quoted quote, c.advance 1⟩
    else ⟨.quoted quote, c⟩
  | ⟨.lineComment, c⟩ => ⟨.done .lineComment, c.toLineEnd⟩
  | ⟨.blockComment, c⟩ =>
    let (closed, c) := c.pastCommentEnd
    ⟨.done (if closed then .blockComment else .unterminatedComment), c⟩
  | ⟨.done tag, c⟩ => ⟨.done tag, c⟩

/-- A turn within a blank run: one byte on, or the end. -/
theorem turn_blank (c : Cursor) : turn ⟨.blank, c⟩
    = if isSpace c.current || (c.current == cr && c.peek != lf) then ⟨.blank, c.advance 1⟩
      else ⟨.done .whitespace, c⟩ := rfl

/-- A turn within an identifier: one byte on, or the end. -/
theorem turn_ident (c : Cursor) : turn ⟨.ident, c⟩
    = if !c.atEnd && isIdentPart c.current then ⟨.ident, c.advance 1⟩ else ⟨.done .ident, c⟩ := rfl

/-- A turn within a number: one byte on, which is kept in mind, or the end. -/
theorem turn_number (hex : Bool) (before : UInt8) (c : Cursor) : turn ⟨.number hex before, c⟩
    = if isIdentPart c.current || c.current == 0x2E || isExponentSign hex before c.current then
        ⟨.number hex c.current, c.advance 1⟩
      else ⟨.done .number, c⟩ := rfl

/-- A turn within a quoted run: on to the next byte that may end it. -/
theorem turn_quoted (quote : UInt8) (c : Cursor) :
    turn ⟨.quoted quote, c⟩ = ⟨.delimiter quote, c.seek (isQuoteDelimiter quote)⟩ := rfl

/-- A turn at a byte that may end a quoted run. -/
theorem turn_delimiter (quote : UInt8) (c : Cursor) : turn ⟨.delimiter quote, c⟩
    = if c.current = backslash then ⟨.escape quote, c.advance 1⟩
      else if c.current = lf ∨ c.current = cr ∨ c.current = 0 then
        ⟨.done .unterminatedString, c⟩
      else ⟨.done .string, c.advance 1⟩ := rfl

/-- A turn behind a backslash: the byte there is passed over, or a line end of two bytes. -/
theorem turn_escape (quote : UInt8) (c : Cursor) : turn ⟨.escape quote, c⟩
    = if c.current = cr ∧ c.peek = lf then ⟨.quoted quote, c.advance 2⟩
      else if !c.atEnd then ⟨.quoted quote, c.advance 1⟩
      else ⟨.quoted quote, c⟩ := rfl

/-! ## §3. No movement leaves the source -/

/-- The pairs of characters have no zero byte. -/
theorem peek_of_pair {c : Cursor} (h : pairs.contains (c.current, c.peek) = true) : c.peek ≠ 0 :=
  (pair_plain _ (List.contains_iff_mem.mp h)).2.2.1

/-- Behind an operator of two characters the source may end, but is not left. -/
theorem enterOperator_within {c : Cursor} (h : c.pos + 1 ≤ c.source.length) :
    c.Within (enterOperator c).cursor := by
  unfold enterOperator
  dsimp only
  split
  · rename_i hpair
    exact Cursor.within_advance (Cursor.lt_of_peek (peek_of_pair hpair))
  · split
    · exact Cursor.within_advance h
    · exact Cursor.within_advance h

/-- Both ways of a choice stay within the source. -/
theorem within_ite {c : Cursor} {p : Prop} [Decidable p] {s s' : Scanner}
    (h : p → c.Within s.cursor) (h' : ¬ p → c.Within s'.cursor) :
    c.Within (if p then s else s').cursor := by
  by_cases hp : p
  · rw [if_pos hp]
    exact h hp
  · rw [if_neg hp]
    exact h' hp

/-- **The first movement** within a lexeme stays in the source. -/
theorem enter_within {c : Cursor} (h : c.atEnd = false) : c.Within (enter c).cursor := by
  have hone := Cursor.lt_of_not_atEnd h
  have hhere : c.Within c := .refl (by omega)
  have htwo : ∀ b : UInt8, b ≠ 0 → c.peek = b → c.Within (c.advance 2) := fun b hb hpeek =>
    Cursor.within_advance (Cursor.lt_of_peek (hpeek ▸ hb))
  have hnext : c.Within (c.advance 1) := Cursor.within_advance hone
  have hoperator : c.Within (enterOperator c).cursor := enterOperator_within hone
  unfold enter enterNumber
  refine within_ite (fun _ => hnext) fun _ => ?_
  refine within_ite (fun _ => hhere) fun _ => ?_
  refine within_ite (fun _ => within_ite (htwo lf (by decide)) fun _ => hhere) fun _ => ?_
  refine within_ite (fun _ => hnext) fun _ => ?_
  refine within_ite (fun _ => hnext) fun _ => ?_
  refine within_ite (fun _ => hnext) fun _ => ?_
  refine within_ite (fun _ => within_ite (fun _ => hnext) fun _ => hoperator) fun _ => ?_
  refine within_ite (fun _ => hnext) fun _ => ?_
  refine within_ite (fun _ => ?_) fun _ => hoperator
  refine within_ite (htwo 0x2F (by decide)) fun _ => ?_
  exact within_ite (htwo 0x2A (by decide)) fun _ => hoperator

/-- A zero byte goes on with no run. -/
theorem zero_plain : isSpace 0 = false ∧ isIdentPart 0 = false
    ∧ ∀ hex before, isExponentSign hex before 0 = false :=
  ⟨by decide, by decide, fun _ _ => rfl⟩

/-- **One movement stays in the source.** -/
theorem turn_within {s : Scanner} (h : s.cursor.pos ≤ s.cursor.source.length) :
    s.cursor.Within (turn s).cursor := by
  obtain ⟨mode, c⟩ := s
  dsimp only at h ⊢
  have hhere : c.Within c := .refl h
  -- a byte that lets a run go on is not zero
  have hnext : ∀ p : UInt8 → Bool, p 0 = false → p c.current = true → c.Within (c.advance 1) :=
    fun p hp hb => Cursor.within_advance (Cursor.lt_of_current fun he => by
      rw [he, hp] at hb
      exact Bool.noConfusion hb)
  obtain ⟨hspace, hident, hsign⟩ := zero_plain
  cases mode with
  | blank =>
    rw [turn_blank]
    split
    · rename_i hgo
      exact hnext (fun b => isSpace b || (b == cr && c.peek != lf)) (by simp [hspace, cr]) hgo
    · exact hhere
  | ident =>
    rw [turn_ident]
    split
    · rename_i hgo
      exact hnext isIdentPart hident (Bool.and_eq_true_iff.mp hgo).2
    · exact hhere
  | number hex before =>
    rw [turn_number]
    split
    · rename_i hgo
      exact hnext (fun b => isIdentPart b || b == 0x2E || isExponentSign hex before b)
        (by simp [hident, hsign]) hgo
    · exact hhere
  | quoted quote => exact Cursor.within_seek _ h
  | delimiter quote =>
    rw [turn_delimiter]
    split
    · rename_i hb
      exact Cursor.within_advance (Cursor.lt_of_current (by rw [hb]; decide))
    · split
      · exact hhere
      · rename_i hb
        exact Cursor.within_advance (Cursor.lt_of_current fun hzero => hb (.inr (.inr hzero)))
  | escape quote =>
    rw [turn_escape]
    split
    · rename_i hb
      exact Cursor.within_advance (Cursor.lt_of_peek (by rw [hb.2]; decide))
    · split
      · rename_i hend
        exact Cursor.within_advance (Cursor.lt_of_not_atEnd (by simpa using hend))
      · exact hhere
  | lineComment => exact Cursor.within_seek _ h
  | blockComment => exact Cursor.within_pastCommentEnd h
  | done tag => exact hhere

/-- **All movements within a lexeme** stay in the source. -/
theorem turns_within {c : Cursor} (h : c.atEnd = false) (n : Nat) :
    c.Within (turn^[n] (enter c)).cursor := by
  induction n with
  | zero => exact enter_within h
  | succ n ih =>
    rw [Function.iterate_succ_apply']
    exact ih.trans (turn_within (ih.source ▸ ih.inside))

/-! ## §4. The movements end with the lexeme -/

/-- Some turns lead from the one to the other. -/
def Leads (s t : Scanner) : Prop := ∃ n, turn^[n] s = t

theorem Leads.refl (s : Scanner) : Leads s s := ⟨0, rfl⟩

/-- One more turn in front. -/
theorem Leads.of_turn {s s' t : Scanner} (hturn : turn s = s') (h : Leads s' t) : Leads s t := by
  obtain ⟨n, rfl⟩ := h
  exact ⟨n + 1, congrArg turn^[n] hturn⟩

/-- Two scanners whose next turn is the same come to the same end. -/
theorem Leads.of_turn_eq {s s' : Scanner} {tag : Tag} {c : Cursor} (hturn : turn s = turn s')
    (hmode : s'.mode ≠ .done tag) (h : Leads s' ⟨.done tag, c⟩) : Leads s ⟨.done tag, c⟩ := by
  obtain ⟨n, hn⟩ := h
  cases n with
  | zero => exact absurd (congrArg Scanner.mode hn) hmode
  | succ n => exact ⟨n + 1, (congrArg turn^[n] hturn).trans hn⟩

variable {c : Cursor} {b : UInt8} {rest : List UInt8}

/-- What is led to behind one byte more. -/
theorem Leads.advance {s : Scanner} {mode : Mode} {m n : Nat}
    (h : Leads s ⟨mode, (c.advance m).advance n⟩) : Leads s ⟨mode, c.advance (n + m)⟩ := by
  rwa [Cursor.advance_advance, Nat.add_comm] at h

/-- A turn that does not move. -/
theorem Leads.here {s : Scanner} {mode : Mode} (h : turn s = ⟨mode, c⟩) :
    Leads s ⟨mode, c.advance 0⟩ := .of_turn h (advance_zero c ▸ .refl _)

/-- The turns within a blank run end behind it. -/
theorem leads_blank (s : List UInt8) (hrest : c.rest = s) :
    Leads ⟨.blank, c⟩ ⟨.done .whitespace, c.advance (blankLength s)⟩ := by
  induction s generalizing c with
  | nil =>
    refine .here ?_
    rw [turn_blank, current_of_nil hrest]
    rfl
  | cons b rest ih =>
    have hturn := turn_blank c
    rw [current_of_rest hrest, peek_of_rest hrest] at hturn
    rw [blankLength]
    split at hturn
    · rw [if_pos ‹_›]
      exact .of_turn hturn (ih (rest_advance_one hrest)).advance
    · rw [if_neg ‹_›]
      exact .here hturn

/-- The turns within an identifier end behind it. -/
theorem leads_ident (s : List UInt8) (hrest : c.rest = s) :
    Leads ⟨.ident, c⟩ ⟨.done .ident, c.advance (s.takeWhile isIdentPart).length⟩ := by
  induction s generalizing c with
  | nil =>
    refine .here ?_
    rw [turn_ident, current_of_nil hrest, zero_plain.2.1, Bool.and_false]
    rfl
  | cons b rest ih =>
    have hturn := turn_ident c
    rw [current_of_rest hrest, atEnd_of_rest hrest, Bool.not_false, Bool.true_and] at hturn
    rw [List.takeWhile_cons]
    split at hturn
    · rw [if_pos ‹_›]
      exact .of_turn hturn (ih (rest_advance_one hrest)).advance
    · rw [if_neg ‹_›]
      exact .here hturn

/-- The turns within a number end behind it. -/
theorem leads_number (hex : Bool) (before : UInt8) (s : List UInt8) (hrest : c.rest = s) :
    Leads ⟨.number hex before, c⟩ ⟨.done .number, c.advance (numberLength hex before s)⟩ := by
  induction s generalizing c before with
  | nil =>
    refine .here ?_
    rw [turn_number, current_of_nil hrest, zero_plain.2.1, zero_plain.2.2]
    rfl
  | cons b rest ih =>
    have hturn := turn_number hex before c
    rw [current_of_rest hrest] at hturn
    rw [numberLength]
    split at hturn
    · rw [if_pos ‹_›]
      exact .of_turn hturn (ih b (rest_advance_one hrest)).advance
    · rw [if_neg ‹_›]
      exact .here hturn

/-- A search passes over a byte that is not searched for. -/
theorem seek_advance {p : UInt8 → Bool} (hrest : c.rest = b :: rest) (hb : p b = false) :
    c.seek p = (c.advance 1).seek p := by
  unfold Cursor.seek
  rw [rest_advance_one hrest, hrest, List.findIdx?_cons, hb]
  cases rest.findIdx? p with
  | none => rfl
  | some n =>
    show c.advance (n + 1) = (c.advance 1).advance n
    rw [Cursor.advance_advance, Nat.add_comm]

/-- A search stays at a byte that is searched for. -/
theorem seek_here {p : UInt8 → Bool} (hrest : c.rest = b :: rest) (hb : p b = true) :
    c.seek p = c := by
  unfold Cursor.seek
  rw [hrest, List.findIdx?_cons, hb]
  exact advance_zero c

/-- A search at the end stays there. -/
theorem seek_end {p : UInt8 → Bool} (hrest : c.rest = []) (hle : c.pos ≤ c.source.length) :
    c.seek p = c := by
  unfold Cursor.seek
  rw [hrest]
  show c.toEnd = c
  rw [Cursor.toEnd_eq hle (n := 0) (by rw [hrest]; rfl), advance_zero]

/-- The tag of a quoted run. -/
def quotedTag (closed : Bool) : Tag := if closed then .string else .unterminatedString

/-- At a byte that can end or escape a quoted run, the search for one has ended. -/
theorem leads_delimiter {quote : UInt8} {t : Scanner} (hrest : c.rest = b :: rest)
    (hb : isQuoteDelimiter quote b = true) (h : Leads (turn ⟨.delimiter quote, c⟩) t) :
    Leads ⟨.quoted quote, c⟩ t := by
  refine .of_turn (turn_quoted quote c) ?_
  rw [seek_here hrest hb]
  exact .of_turn rfl h

/-- A backslash within a quoted run, and the turn behind it. -/
theorem leads_backslash {quote : UInt8} {t : Scanner} (hrest : c.rest = backslash :: rest)
    (h : Leads (turn ⟨.escape quote, c.advance 1⟩) t) : Leads ⟨.quoted quote, c⟩ t := by
  refine leads_delimiter hrest (by simp [isQuoteDelimiter]) ?_
  rw [turn_delimiter, if_pos (current_of_rest hrest)]
  exact .of_turn rfl h

/-- A quoted run that meets the end of the source. -/
theorem leads_quoted_nil {quote : UInt8} (hrest : c.rest = []) (hle : c.pos ≤ c.source.length) :
    Leads ⟨.quoted quote, c⟩ ⟨.done .unterminatedString, c⟩ := by
  refine .of_turn (turn_quoted quote c) ?_
  rw [seek_end hrest hle]
  refine .of_turn (turn_delimiter quote c) ?_
  rw [current_of_nil hrest, if_neg (by decide), if_pos (by decide)]
  exact .refl _

/-- The turns within a quoted run end behind its quote, or where it breaks off. -/
theorem leads_quoted {quote : UInt8} (hquote : quote = 0x22 ∨ quote = 0x27) (s : List UInt8)
    (hrest : c.rest = s) (hle : c.pos ≤ c.source.length) :
    Leads ⟨.quoted quote, c⟩
      ⟨.done (quotedTag (quotedLength quote s).2), c.advance (quotedLength quote s).1⟩ := by
  have hplain : quote ≠ backslash ∧ quote ≠ lf ∧ quote ≠ cr ∧ quote ≠ 0 := by
    rcases hquote with rfl | rfl <;> decide
  -- as many bytes as are ahead can be passed
  have hahead : ∀ {c : Cursor} {n : Nat}, c.pos ≤ c.source.length → n ≤ c.rest.length →
      (c.advance n).pos ≤ (c.advance n).source.length := by
    intro c n hle hn
    have := c.length_rest
    show c.pos + n ≤ c.source.length
    omega
  fun_induction quotedLength quote s generalizing c with
  | case1 => exact advance_zero c ▸ leads_quoted_nil hrest hle
  | case2 =>
    have hend : (c.advance 1).rest = [] := rest_advance_one hrest
    refine leads_backslash hrest ?_
    rw [turn_escape, current_of_nil hend, if_neg (by rintro ⟨h, -⟩; revert h; decide),
      show (c.advance 1).atEnd = true by unfold Cursor.atEnd; rw [hend]; rfl]
    exact leads_quoted_nil hend (hahead hle (by simp [hrest]))
  | case3 =>
    have hcr : (c.advance 1).rest = [cr] := rest_advance_one hrest
    have hend : ((c.advance 1).advance 1).rest = [] := rest_advance_one hcr
    refine leads_backslash hrest ?_
    rw [turn_escape, peek_of_rest hcr, if_neg (by rintro ⟨-, h⟩; revert h; decide),
      atEnd_of_rest hcr]
    have hmore : Leads ⟨.quoted quote, _⟩ _ := leads_quoted_nil hend
      (hahead (hahead hle (by simp [hrest])) (by rw [hcr]; simp))
    exact hmore.advance
  | case4 tail n closed heq ih =>
    have hcr : (c.advance 1).rest = cr :: lf :: tail := rest_advance_one hrest
    refine leads_backslash hrest ?_
    rw [turn_escape, if_pos ⟨current_of_rest hcr, peek_of_rest hcr⟩, Cursor.advance_advance]
    have hmore := ih (c := c.advance 3) (by rw [Cursor.rest_advance, hrest]; rfl)
      (hahead hle (by simp [hrest]))
    rw [heq] at hmore
    exact hmore.advance
  | case5 b tail hlf n closed heq ih =>
    have hcr : (c.advance 1).rest = cr :: b :: tail := rest_advance_one hrest
    refine leads_backslash hrest ?_
    rw [turn_escape, peek_of_rest hcr, if_neg (fun h => hlf h.2), atEnd_of_rest hcr]
    have hmore := ih (c := c.advance 2) (by rw [Cursor.rest_advance, hrest]; rfl)
      (hahead hle (by simp [hrest]))
    rw [heq] at hmore
    exact Cursor.advance_advance c 1 1 ▸ hmore.advance
  | case6 b tail hcr n closed heq ih =>
    have hb : (c.advance 1).rest = b :: tail := rest_advance_one hrest
    refine leads_backslash hrest ?_
    rw [turn_escape, current_of_rest hb, if_neg (fun h => hcr h.1), atEnd_of_rest hb]
    have hmore := ih (c := c.advance 2) (by rw [Cursor.rest_advance, hrest]; rfl)
      (hahead hle (by simp [hrest]))
    rw [heq] at hmore
    exact Cursor.advance_advance c 1 1 ▸ hmore.advance
  | case7 b tail hslash hline =>
    have hb : isQuoteDelimiter quote b = true := by
      rcases hline with rfl | rfl <;> simp [isQuoteDelimiter]
    refine leads_delimiter hrest hb ?_
    rw [turn_delimiter, current_of_rest hrest, if_neg hslash,
      if_pos (hline.imp_right Or.inl), advance_zero]
    exact .refl _
  | case8 tail =>
    refine leads_delimiter hrest (by simp [isQuoteDelimiter]) ?_
    rw [turn_delimiter, current_of_rest hrest, if_neg hplain.1,
      if_neg (by rintro (h | h | h); exacts [hplain.2.1 h, hplain.2.2.1 h, hplain.2.2.2 h])]
    exact .refl _
  | case9 b tail hslash hline hne n closed heq ih =>
    have hb : isQuoteDelimiter quote b = false := by
      obtain ⟨hlf, hcr⟩ := not_or.mp hline
      simp [isQuoteDelimiter, hslash, hlf, hcr, hne]
    have hturn : turn ⟨.quoted quote, c⟩ = turn ⟨.quoted quote, c.advance 1⟩ := by
      rw [turn_quoted, turn_quoted, seek_advance hrest hb]
    refine .of_turn_eq hturn (by simp) ?_
    have hmore := ih (rest_advance_one hrest) (hahead hle (by simp [hrest]))
    rw [heq] at hmore
    exact hmore.advance

/-- What is read of the source at a cursor: the class of the lexeme, and the cursor behind it. -/
def answerOf (r : Lexeme × Cursor) : Scanner := ⟨.done r.1.tag, r.2⟩

/-- An operator takes no turn but the first. -/
theorem leads_operator (c : Cursor) : Leads (enterOperator c) (answerOf (operator c)) := by
  have hsame : enterOperator c = answerOf (operator c) := by
    unfold enterOperator operator
    dsimp only
    split
    · rfl
    · split
      · rfl
      · rfl
  exact hsame ▸ .refl _

/-- The turns within a number, from its first byte on. -/
theorem leads_enterNumber (c : Cursor) : Leads (enterNumber c) (answerOf (number c)) := by
  have hmore := leads_number (c := c.advance 1) (isHex c.current c.peek) c.current _ rfl
  rw [Cursor.advance_advance] at hmore
  exact hmore

/-- The turns behind a slash. -/
theorem leads_slash (c : Cursor) :
    Leads (if c.peek = 0x2F then ⟨.lineComment, c.advance 2⟩
      else if c.peek = 0x2A then ⟨.blockComment, c.advance 2⟩ else enterOperator c)
      (answerOf (slash c)) := by
  unfold slash
  split
  · exact .of_turn rfl (.refl _)
  · split
    · exact .of_turn rfl (.refl _)
    · exact leads_operator c

/-- **The movements within a lexeme** end with the lexeme that is next, behind it. -/
theorem exists_turns {c c' : Cursor} {lexeme : Lexeme} (h : next? c = some (lexeme, c')) :
    Leads (enter c) ⟨.done lexeme.tag, c'⟩ := by
  have hend : c.atEnd = false := by
    by_contra hne
    rw [(next?_eq_none_iff c).mpr (by simpa using hne)] at h
    simp at h
  have hle := Cursor.lt_of_not_atEnd hend
  unfold next? at h
  rw [if_neg (by simp [hend])] at h
  have hanswer := congrArg answerOf (Option.some.inj h)
  show Leads (enter c) (answerOf (lexeme, c'))
  rw [← hanswer]
  unfold enter
  dsimp only
  -- both cascades ask about the byte in the same order, so that the same branch is taken
  by_cases hnull : c.current = 0
  · rw [if_pos hnull, if_pos hnull]
    exact .refl _
  rw [if_neg hnull, if_neg hnull]
  by_cases hspace : isSpace c.current = true
  · rw [if_pos hspace, if_pos hspace]
    exact leads_blank _ rfl
  rw [if_neg hspace, if_neg hspace]
  by_cases hcr : c.current = cr
  · rw [if_pos hcr, if_pos hcr]
    by_cases hlf : c.peek = lf
    · rw [if_pos hlf, if_pos hlf]
      exact .refl _
    · rw [if_neg hlf, if_neg hlf]
      exact leads_blank _ rfl
  rw [if_neg hcr, if_neg hcr]
  by_cases hlf : c.current = lf
  · rw [if_pos hlf, if_pos hlf]
    exact .refl _
  rw [if_neg hlf, if_neg hlf]
  by_cases hident : isIdentStart c.current = true
  · rw [if_pos hident, if_pos hident]
    exact leads_ident _ rfl
  rw [if_neg hident, if_neg hident]
  by_cases hdigit : isDigit c.current = true
  · rw [if_pos hdigit, if_pos hdigit]
    exact leads_enterNumber c
  rw [if_neg hdigit, if_neg hdigit]
  by_cases hdot : c.current = 0x2E
  · rw [if_pos hdot, if_pos hdot]
    by_cases hnext : isDigit c.peek = true
    · rw [if_pos hnext, if_pos hnext]
      exact leads_enterNumber c
    · rw [if_neg hnext, if_neg hnext]
      exact leads_operator c
  rw [if_neg hdot, if_neg hdot]
  by_cases hquote : c.current = 0x22 ∨ c.current = 0x27
  · rw [if_pos hquote, if_pos hquote]
    have hmore := leads_quoted hquote _ (Cursor.rest_advance c 1) hle
    rw [Cursor.advance_advance] at hmore
    exact hmore
  rw [if_neg hquote, if_neg hquote]
  by_cases hslash : c.current = 0x2F
  · rw [if_pos hslash, if_pos hslash]
    exact leads_slash c
  · rw [if_neg hslash, if_neg hslash]
    exact leads_operator c

/-! ## §5. Call after call -/

/-- The largest offset in a source that can be counted. -/
def maxOffset : Nat := 4294967295

/-- One call for a lexeme: there is none at the end, and the cursor stays there. -/
def call (c : Cursor) : Option Lexeme × Cursor :=
  match next? c with
  | some (lexeme, c') => (some lexeme, c')
  | none => (none, c)

/-- The cursor after some calls. -/
def after (c : Cursor) (k : Nat) : Cursor := (fun c => (call c).2)^[k] c

/-- The answer to the call after some others. -/
def answer (c : Cursor) (k : Nat) : Option Lexeme := (call (after c k)).1

/-- The cursor at some moment within the call after some others. -/
def moment (c : Cursor) (k n : Nat) : Cursor := (turn^[n] (enter (after c k))).cursor

/-- **Calls cover the source** from the cursor on: so many of them answer with a lexeme, and all
    later ones with none. -/
structure Covered (c : Cursor) (count : Nat) : Prop where
  /-- There are no more lexemes than bytes. -/
  bound : count ≤ c.rest.length
  /-- A lexeme has bytes, and the cursor moves on by as many, with the movements within it. -/
  reads : ∀ k < count, ∃ lexeme, answer c k = some lexeme ∧ 0 < lexeme.length
    ∧ (after c (k + 1)).pos = (after c k).pos + lexeme.length
    ∧ Leads (enter (after c k)) ⟨.done lexeme.tag, after c (k + 1)⟩
  /-- Together the lexemes have all bytes. -/
  total : ((List.range count).map fun k => ((answer c k).map (·.length)).getD 0).sum
    = c.rest.length
  /-- All later calls find the end, and stay there. -/
  stays : ∀ k, count ≤ k → answer c k = none ∧ (after c k).pos = c.source.length
  /-- At no moment is the cursor outside of the source. -/
  inside : ∀ k < count, ∀ n, (after c k).pos ≤ (moment c k n).pos
    ∧ (moment c k n).pos ≤ c.source.length
  /-- The lexemes are those that scanning lists. -/
  scanned : ∀ fuel, count ≤ fuel → scanFrom fuel c
    = (List.range count).filterMap fun k => (answer c k).map ((after c k).pos, ·)

/-- An operator has a byte. -/
theorem munchOperator_pos (b peek : UInt8) : 0 < (munchOperator b peek).length := by
  unfold munchOperator
  split
  · exact Nat.two_pos
  · split
    · exact Nat.one_pos
    · exact Nat.one_pos

/-- What begins with a slash has a byte. -/
theorem munchSlash_pos (rest : List UInt8) : 0 < (munchSlash rest).length := by
  unfold munchSlash
  split
  · exact Nat.add_pos_left Nat.two_pos _
  · split
    · split
      · exact Nat.add_pos_left Nat.two_pos _
      · exact Nat.add_pos_left Nat.two_pos _
    · exact munchOperator_pos _ _

/-- **Every lexeme has bytes.** -/
theorem munch_pos {s : List UInt8} {lexeme : Lexeme} (h : munch s = some lexeme) :
    0 < lexeme.length := by
  cases s with
  | nil => simp [munch] at h
  | cons b rest =>
    cases munch_inv h with
    | interiorNull => exact Nat.one_pos
    | blank hblank => exact blankLength_pos hblank
    | carriageReturn => exact Nat.two_pos
    | lineFeed => exact Nat.one_pos
    | ident => exact Nat.add_pos_left Nat.one_pos _
    | number => exact Nat.add_pos_left Nat.one_pos _
    | quoted => exact Nat.add_pos_left Nat.one_pos _
    | slash => exact munchSlash_pos _
    | operator => exact munchOperator_pos _ _

/-- At the end calls stay where they are. -/
theorem after_of_atEnd {c : Cursor} (h : c.atEnd = true) (k : Nat) :
    after c k = c ∧ answer c k = none := by
  have hcall : call c = (none, c) := by
    unfold call
    rw [(next?_eq_none_iff c).mpr h]
  have hstay : after c k = c := Function.iterate_fixed (congrArg Prod.snd hcall) k
  unfold answer
  exact ⟨hstay, by rw [hstay, hcall]⟩

/-- At the end of the source no call answers with a lexeme. -/
theorem covered_of_atEnd {c : Cursor} (h : c.atEnd = true) (hle : c.pos ≤ c.source.length) :
    Covered c 0 where
  bound := Nat.zero_le _
  reads := by simp
  total := by
    rw [List.isEmpty_iff.mp h]
    rfl
  stays k _ := by
    obtain ⟨hstay, hnone⟩ := after_of_atEnd h k
    have hend := c.atEnd_iff.mp h
    exact ⟨hnone, by rw [hstay]; omega⟩
  inside := by simp
  scanned fuel _ := by
    cases fuel with
    | zero => rfl
    | succ fuel =>
      unfold scanFrom
      rw [(next?_eq_none_iff c).mpr h]
      rfl

/-- One call before calls that cover the source behind it. -/
theorem Covered.cons {c : Cursor} {lexeme : Lexeme} {count : Nat} (hend : c.atEnd = false)
    (hnext : next? c = some (lexeme, c.advance lexeme.length)) (hpos : 0 < lexeme.length)
    (hwithin : c.pos + lexeme.length ≤ c.source.length)
    (h : Covered (c.advance lexeme.length) count) : Covered c (count + 1) := by
  have hcall : call c = (some lexeme, c.advance lexeme.length) := by
    unfold call
    rw [hnext]
  have hafter : ∀ k, after c (k + 1) = after (c.advance lexeme.length) k := fun k =>
    (Function.iterate_succ_apply _ k c).trans (by rw [hcall]; rfl)
  have hanswer : ∀ k, answer c (k + 1) = answer (c.advance lexeme.length) k := fun k => by
    unfold answer
    rw [hafter]
  have hmoment : ∀ k n, moment c (k + 1) n = moment (c.advance lexeme.length) k n := fun k n => by
    unfold moment
    rw [hafter]
  have hfirst : answer c 0 = some lexeme := congrArg Prod.fst hcall
  have hlength := c.length_rest
  have hrest : (c.advance lexeme.length).rest.length = c.rest.length - lexeme.length := by
    rw [Cursor.rest_advance, List.length_drop]
  -- the first call reads the lexeme; each later one is the call before it from behind the lexeme
  constructor
  case bound =>
    have hbound := h.bound
    omega
  case reads =>
    intro k hk
    cases k with
    | zero =>
      refine ⟨lexeme, hfirst, hpos, ?_, ?_⟩
      · rw [hafter]
        rfl
      · rw [hafter]
        exact exists_turns hnext
    | succ k =>
      rw [hafter, hafter, hanswer]
      exact h.reads k (Nat.lt_of_succ_lt_succ hk)
  case total =>
    rw [List.range_succ_eq_map, List.map_cons, List.map_map, List.sum_cons, hfirst]
    have htotal := h.total
    rw [hrest] at htotal
    simp only [Function.comp_def, Nat.succ_eq_add_one, hanswer, htotal, Option.map_some,
      Option.getD_some]
    omega
  case stays =>
    intro k hk
    cases k with
    | zero => omega
    | succ k =>
      rw [hafter, hanswer]
      exact h.stays k (Nat.le_of_succ_le_succ hk)
  case inside =>
    intro k hk n
    cases k with
    | zero =>
      have hin := turns_within hend n
      exact ⟨hin.behind, hin.inside⟩
    | succ k =>
      rw [hafter, hmoment]
      exact h.inside k (Nat.lt_of_succ_lt_succ hk) n
  case scanned =>
    intro fuel hfuel
    cases fuel with
    | zero => omega
    | succ fuel =>
      unfold scanFrom
      rw [hnext]
      dsimp only
      rw [h.scanned fuel (Nat.le_of_succ_le_succ hfuel), List.range_succ_eq_map,
        List.filterMap_cons, hfirst, Option.map_some, List.filterMap_map]
      simp only [Function.comp_def, Nat.succ_eq_add_one, hafter, hanswer]
      rfl

/-- **Calls from a cursor on** cover what is ahead of it. -/
theorem exists_covered (c : Cursor) (hle : c.pos ≤ c.source.length) :
    ∃ count, Covered c count := by
  induction hn : c.rest.length using Nat.strongRecOn generalizing c with
  | ind n ih =>
    subst hn
    cases hend : c.atEnd with
    | true => exact ⟨0, covered_of_atEnd hend hle⟩
    | false =>
      obtain ⟨⟨lexeme, c'⟩, hnext⟩ : ∃ r, next? c = some r :=
        Option.ne_none_iff_exists'.mp fun hnone => by
          rw [(next?_eq_none_iff c).mp hnone] at hend
          exact Bool.noConfusion hend
      have heq := next?_eq c
      rw [hnext] at heq
      obtain ⟨lexeme', hmunch, hsame⟩ := Option.map_eq_some_iff.mp heq.symm
      obtain ⟨rfl, rfl⟩ := Prod.mk.inj hsame
      obtain ⟨n, hn⟩ := exists_turns hnext
      have hin := turns_within hend n
      rw [hn] at hin
      have hpos := munch_pos hmunch
      have hlength := c.length_rest
      have hinside : c.pos + lexeme'.length ≤ c.source.length := hin.inside
      -- each lexeme has a byte, so that less is ahead behind it
      obtain ⟨count, hcount⟩ := ih (c.advance lexeme'.length).rest.length
        (by rw [Cursor.rest_advance, List.length_drop]; omega) _ hinside rfl
      exact ⟨count + 1, hcount.cons hend hnext hpos hinside⟩

/-- **Calls one after the other cover the source**, whatever its bytes are: no more of them than
    there are bytes answer with a lexeme, and the lexemes have all bytes; every later call finds
    the end.  At no moment within a call is the cursor beyond the end, so that an offset can
    always be counted. -/
theorem calls_cover (source : List UInt8) (hsize : source.length ≤ maxOffset) :
    ∃ count ≤ source.length, Covered (Cursor.start source) count
      ∧ ∀ k n, k < count → (moment (Cursor.start source) k n).pos ≤ maxOffset := by
  obtain ⟨count, h⟩ := exists_covered (Cursor.start source) (Nat.zero_le _)
  exact ⟨count, h.bound, h, fun k n hk => Nat.le_trans (h.inside k hk n).2 hsize⟩

/-- A quoted run that ends with a backslash, where an escape is at the very end. -/
theorem calls_cover_escapeAtEnd : [0x22, 0x00, 0x5C].length ≤ maxOffset
    ∧ ∃ count ≤ 3, Covered (Cursor.start [0x22, 0x00, 0x5C]) count
      ∧ ∀ k n, k < count → (moment (Cursor.start [0x22, 0x00, 0x5C]) k n).pos ≤ maxOffset :=
  ⟨by decide, calls_cover [0x22, 0x00, 0x5C] (by decide)⟩

end Lexeme

end KernelPrep
