/-
  KernelPrep.Proofs.Lexeme.Follow — what may follow a lexeme.

  A lexeme ends where it does because of the byte behind it, or the two bytes of a line end.
  So what stands behind it may change, as long as that begins in the same way; and there are
  lexemes that end whatever comes next, and bytes that end nearly every lexeme.

  Main definitions:
    * `Lexeme.Alike`   — two continuations that begin in the same way;
    * `Lexeme.isBreak` — bytes that go on with nothing;
    * `Lexeme.isFirm`  — operators that nothing goes on with.

  Main statements:
    * `Lexeme.Alike.stops`  — a lexeme ends before both continuations or before none;
    * `Lexeme.stops_break`, `Lexeme.stops_firm` — where it ends in any case.
-/
import KernelPrep.Proofs.Lexeme.Munch

namespace KernelPrep.Lexeme

variable {text rest old new : List UInt8} {tag : Tag} {b c : UInt8}

/-! ## §1. Continuations that begin in the same way -/

/-- The continuation `new` begins as `old` does: with the same lexeme, or with an identifier
    where there was one. -/
inductive Alike : List UInt8 → List UInt8 → Prop
  | nil : Alike [] []
  | lexeme {tag : Tag} {text old new : List UInt8} : Formed tag text → Stops text old tag →
      Alike (text ++ old) (text ++ new)
  | ident {b c : UInt8} {old new : List UInt8} : isIdentStart b = true →
      isIdentStart c = true → Alike (b :: old) (c :: new)

/-- A lexeme that starts like a line end is a blank or a line end. -/
theorem Formed.tag_of_eol (h : Formed tag (b :: text)) (hb : b = cr ∨ b = lf) :
    tag = .whitespace ∨ tag = .newline := by
  have hplain : isIdentStart b = false ∧ isDigit b = false ∧ b ∉ singles ∧ b ≠ 0x2F ∧ b ≠ 0x2E
      ∧ b ≠ 0x22 ∧ b ≠ 0x27 := by
    rcases hb with rfl | rfl <;> decide
  obtain ⟨hstart, hdigit, hsingle, hslash, hdot, hquotes⟩ := hplain
  cases h with
  | whitespace hne hall => exact Or.inl rfl
  | carriageReturn => exact Or.inr rfl
  | lineFeed => exact Or.inr rfl
  | lineComment hbody => exact absurd rfl hslash
  | blockComment hbody => exact absurd rfl hslash
  | ident hb hbody => simp [hstart] at hb
  | number hb hbody => simp [hdigit, hdot] at hb
  | string hquote hbody => simp [hquotes] at hquote
  | single hb => exact absurd hb hsingle
  | pair hb => exact absurd (pair_plain _ hb).1 hsingle

/-- A lexeme that starts with a carriage return is a blank or a line end. -/
theorem Formed.of_cr (h : Formed tag (cr :: text)) : tag = .whitespace ∨ text = [lf] := by
  rcases h.tag_of_eol (Or.inl rfl) with rfl | rfl
  · exact Or.inl rfl
  · generalize he : cr :: text = all at h
    cases h with
    | carriageReturn => exact Or.inr (List.cons.inj he).2
    | lineFeed => simp [cr, lf] at he

/-- A lexeme that starts with a line feed is a line end. -/
theorem Formed.of_lf (h : Formed tag (lf :: text)) : tag = .newline := by
  rcases h.tag_of_eol (Or.inr rfl) with rfl | rfl
  · cases h with
    | whitespace hne hall =>
      have hblank := hall lf List.mem_cons_self
      simp [isBlank, isSpace, lf, cr] at hblank
  · rfl

/-- No blank is ahead: neither a space, nor a carriage return without a line feed behind it. -/
theorem blankLength_cons_eq_zero :
    blankLength (b :: rest) = 0 ↔ isSpace b = false ∧ (b = cr → rest.headD 0 = lf) := by
  rw [blankLength]
  split
  · rename_i hblank
    simp only [Bool.or_eq_true, Bool.and_eq_true, beq_iff_eq, bne_iff_ne] at hblank
    simp only [Nat.add_one_ne_zero, false_iff, not_and]
    intro hspace hcr
    rcases hblank with hb | ⟨hb, hne⟩
    · rw [hspace] at hb
      exact Bool.noConfusion hb
    · exact hne (hcr hb)
  · rename_i hblank
    simpa using hblank

/-- A line end that a lexeme begins with is a part of it. -/
theorem Formed.blankLength_append (h : Formed tag text) (hstop : Stops text old tag)
    (hold : blankLength (text ++ old) = 0) (new : List UInt8) :
    blankLength (text ++ new) = 0 := by
  obtain ⟨b, body, rfl⟩ := List.exists_cons_of_ne_nil h.ne_nil
  rw [List.cons_append, blankLength_cons_eq_zero] at hold ⊢
  refine ⟨hold.1, fun hcr => ?_⟩
  have hhead := hold.2 hcr
  subst hcr
  rcases h.of_cr with rfl | rfl
  · -- a blank that ends with a carriage return has no line feed behind it
    exfalso
    cases body with
    | nil =>
      refine hstop.2 rfl ?_
      cases old with
      | nil => simp [lf] at hhead
      | cons c old => exact congrArg some hhead
    | cons c body =>
      cases h with
      | whitespace hne hall =>
        have hc := hall c (by simp)
        rw [show c = lf from hhead] at hc
        simp [isBlank, isSpace, lf, cr] at hc
  · rfl

/-- All lexemes but blanks look at one byte. -/
theorem stops_congr (htag : tag ≠ .whitespace) (h : new.head? = old.head?)
    (hstop : Stops text old tag) : Stops text new tag := by
  have hD : new.headD 0 = old.headD 0 := by
    rw [List.headD_eq_head?_getD, List.headD_eq_head?_getD, h]
  cases tag with
  | whitespace => exact absurd rfl htag
  | lineComment | ident | number =>
    unfold Stops at hstop ⊢
    rwa [h]
  | single d =>
    unfold Stops at hstop ⊢
    rwa [hD]
  | _ => trivial

/-- **A blank** ends before all other lexemes but line ends. -/
theorem stops_blank (hspace : isSpace b = false) (hcr : b ≠ cr) (hlf : b ≠ lf) :
    Stops text (b :: rest) .whitespace :=
  ⟨blankLength_cons_eq_zero.mpr ⟨hspace, fun he => absurd he hcr⟩, fun _ => by simpa using hlf⟩

theorem pair_second : ∀ p ∈ pairs, isIdentStart p.2 = false :=
  List.all_iff_forall_prop.mp (by decide)

/-- Where a lexeme ends before an identifier, it ends before every identifier. -/
theorem stops_ident (hb : isIdentStart b = true) (hc : isIdentStart c = true)
    (hstop : Stops text (b :: old) tag) : Stops text (c :: new) tag := by
  obtain ⟨-, hspace, hcr, hlf⟩ := isIdentPart_plain (isIdentPart_of_start hc)
  -- a lexeme stops before a letter in the same way, whichever letter it is
  cases tag with
  | whitespace => exact stops_blank hspace hcr hlf
  | lineComment =>
    exact absurd (hstop b rfl) (isIdentPart_plain (isIdentPart_of_start hb)).2.2.2
  | ident =>
    have hno := hstop b rfl
    rw [isIdentPart_of_start hb] at hno
    exact Bool.noConfusion hno
  | number =>
    have hno := hstop b rfl
    simp [goesOn, isIdentPart_of_start hb] at hno
  | single d =>
    refine ⟨fun hin => ?_, fun _ => ⟨?_, ?_⟩, fun _ => ?_⟩
    · have hsecond := pair_second _ hin
      rw [List.headD_cons, hc] at hsecond
      exact Bool.noConfusion hsecond
    · rintro rfl
      simp [isIdentStart] at hc
    · rintro rfl
      simp [isIdentStart] at hc
    · by_contra hdigit
      rw [List.headD_cons, Bool.not_eq_false] at hdigit
      rw [isIdentStart_of_digit hdigit] at hc
      exact Bool.noConfusion hc
  | _ => trivial

/-- **A lexeme ends** before a continuation that begins as the one behind it. -/
theorem Alike.stops (h : Alike old new) (hstop : Stops text old tag) : Stops text new tag := by
  cases h with
  | nil => exact hstop
  | @lexeme tag' next old new hnext hends =>
    obtain ⟨b, body, rfl⟩ := List.exists_cons_of_ne_nil hnext.ne_nil
    by_cases htag : tag = .whitespace
    · subst htag
      exact ⟨hnext.blankLength_append hends hstop.1 new, hstop.2⟩
    · refine stops_congr htag ?_ hstop
      rfl
  | ident hb hc => exact stops_ident hb hc hstop

/-- What begins alike goes on an identifier or does not, alike. -/
theorem Alike.identPart (h : Alike old new) :
    (∀ b ∈ new.head?, isIdentPart b = false) ↔ ∀ b ∈ old.head?, isIdentPart b = false := by
  cases h with
  | nil => rfl
  | lexeme hnext hends =>
    obtain ⟨b, body, rfl⟩ := List.exists_cons_of_ne_nil hnext.ne_nil
    rfl
  | ident hb hc =>
    simp [isIdentPart_of_start hb, isIdentPart_of_start hc]

/-! ## §2. Lexemes that end in any case -/

/-- Blanks, line ends, commas, semicolons and parentheses. -/
def isBreak (b : UInt8) : Bool := [0x20, cr, lf, 0x2C, 0x3B, 0x28, 0x29].contains b

theorem isBreak_plain (h : isBreak b = true) : isIdentPart b = false ∧ b ≠ 0x2E ∧ b ≠ 0x2B
    ∧ b ≠ 0x2D ∧ b ≠ 0x2F ∧ b ≠ 0x2A ∧ isDigit b = false := by
  have hall : ∀ b ∈ [0x20, cr, lf, 0x2C, 0x3B, 0x28, 0x29], isIdentPart b = false ∧ b ≠ 0x2E
      ∧ b ≠ 0x2B ∧ b ≠ 0x2D ∧ b ≠ 0x2F ∧ b ≠ 0x2A ∧ isDigit b = false :=
    List.all_iff_forall_prop.mp (by decide)
  exact hall b (by simpa [isBreak] using h)

theorem pair_unbroken : ∀ p ∈ pairs, isBreak p.2 = false :=
  List.all_iff_forall_prop.mp (by decide)

/-- **Before a break** every lexeme ends that is neither a blank nor a line comment. -/
theorem stops_break (hblank : tag ≠ .whitespace) (hcomment : tag ≠ .lineComment)
    (hb : isBreak b = true) : Stops text (b :: rest) tag := by
  obtain ⟨hpart, hdot, hplus, hminus, hslash, hstar, hdigit⟩ := isBreak_plain hb
  cases tag with
  | whitespace => exact absurd rfl hblank
  | lineComment => exact absurd rfl hcomment
  | ident => simpa [Stops] using hpart
  | number => simp [Stops, goesOn, hpart, hdot, hplus, hminus, isExponentSign]
  | single d =>
    refine ⟨fun hin => ?_, fun _ => ⟨hslash, hstar⟩, fun _ => hdigit⟩
    exact Bool.noConfusion (hb.symm.trans (pair_unbroken _ hin))
  | _ => trivial

/-- Brackets, commas and semicolons. -/
def isFirm (b : UInt8) : Bool := [0x28, 0x29, 0x7B, 0x7D, 0x2C, 0x3B].contains b

/-- **Brackets, commas and semicolons** end before everything. -/
theorem stops_firm (hb : isFirm b = true) : Stops text rest (.single b) := by
  have hall : ∀ b ∈ ([0x28, 0x29, 0x7B, 0x7D, 0x2C, 0x3B] : List UInt8), b ≠ 0x2F ∧ b ≠ 0x2E :=
    List.all_iff_forall_prop.mp (by decide)
  have hpairs : ∀ p ∈ pairs, isFirm p.1 = false := List.all_iff_forall_prop.mp (by decide)
  obtain ⟨hslash, hdot⟩ := hall b (by simpa [isFirm] using hb)
  refine ⟨fun hin => ?_, fun he => absurd he hslash, fun he => absurd he hdot⟩
  exact Bool.noConfusion (hb.symm.trans (hpairs _ hin))

end KernelPrep.Lexeme
