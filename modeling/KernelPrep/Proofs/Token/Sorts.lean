/-
  KernelPrep.Proofs.Token.Sorts — lexemes and the tokens made of them.

  Scanner and reader each have their own tables: the scanner knows which bytes are operators,
  the reader finds kinds by number and by text.  The tables agree, so that whatever the scanner
  accepts becomes one token, and the reading stops just where the scanner has found something
  that cannot be read.  Up to there all lexemes end between characters, and so a byte of no
  class is the first of a whole character.

  Main definitions:
    * `TokenKind.Sorts`  — the kind of a lexeme, by its class and text;
    * `LexFault.Blames`  — what is wrong with a lexeme of an error class;
    * `Lexing.Makes`     — the token of a lexeme.

  Main statements:
    * `TokenKind.exists_sorts` — every lexeme that can be read has a kind;
    * `Lexing.readFrom_makes`  — reading makes one token of each lexeme, up to the first error;
    * `TokenList.lex_sorts`    — which sources are read, what of, and what stops the others.
-/
import KernelPrep.Proofs.Token.Lexing

namespace KernelPrep

/-! ## §1. Kinds by class and text -/

namespace TokenKind

/-- No two kinds have the same fixed text. -/
theorem spelling?_injective {a b : TokenKind} {text : String} (ha : a.spelling? = some text)
    (hb : b.spelling? = some text) : a = b := by
  have key : ∀ a ∈ all, ∀ b ∈ all, a.spelling? ≠ none → a.spelling? = b.spelling? → a = b := by
    decide +kernel
  exact key a (mem_all a) b (mem_all b) (by simp [ha]) (ha.trans hb.symm)

/-- The kind of a lexeme: identifiers go by their text, both sorts of comments are one kind,
    and an operator has the kind with its spelling. -/
inductive Sorts : Lexeme.Tag → String → TokenKind → Prop
  | whitespace {text : String} : Sorts .whitespace text .whitespace
  | newline {text : String} : Sorts .newline text .eol
  | lineComment {text : String} : Sorts .lineComment text .comment
  | blockComment {text : String} : Sorts .blockComment text .comment
  | typedef {text : String} : text = "typedef" → Sorts .ident text .typedef
  | struct {text : String} : text = "struct" → Sorts .ident text .struct
  | symbol {text : String} : text ≠ "typedef" → text ≠ "struct" → Sorts .ident text .symbol
  | number {text : String} : Sorts .number text .number
  | string {text : String} : Sorts .string text .string
  | single {byte : UInt8} {text : String} {kind : TokenKind} : Text.bytes text = [byte] →
      kind.spelling? = some text → Sorts (.single byte) text kind
  | pair {first second : UInt8} {text : String} {kind : TokenKind} :
      Text.bytes text = [first, second] → kind.spelling? = some text →
      Sorts (.pair first second) text kind

/-- A lexeme has one kind only. -/
theorem Sorts.unique {tag : Lexeme.Tag} {text : String} {a b : TokenKind} (ha : Sorts tag text a)
    (hb : Sorts tag text b) : a = b := by
  cases ha with
  | single _ ha =>
    cases hb with
    | single _ hb => exact spelling?_injective ha hb
  | pair _ ha =>
    cases hb with
    | pair _ hb => exact spelling?_injective ha hb
  | symbol htypedef hstruct =>
    cases hb with
    | typedef h => exact absurd h htypedef
    | struct h => exact absurd h hstruct
    | symbol => rfl
  | typedef htypedef =>
    cases hb with
    | typedef => rfl
    | struct hstruct => exact absurd (htypedef.symm.trans hstruct) (by decide)
    | symbol h => exact absurd htypedef h
  | struct hstruct =>
    cases hb with
    | typedef htypedef => exact absurd (htypedef.symm.trans hstruct) (by decide)
    | struct => rfl
    | symbol _ h => exact absurd hstruct h
  | _ => cases hb; rfl

/-- **The tables agree**: each operator of the scanner is one of the reader, spelled by its
    characters. -/
theorem exists_ofByte? {byte : UInt8} (h : byte ∈ Lexeme.singles) :
    ∃ kind text, ofByte? byte = some kind ∧ kind.spelling? = some text
      ∧ Text.bytes text = [byte] := by
  have key : (Lexeme.singles.all fun byte =>
      ((ofByte? byte).bind spelling?).map Text.bytes == some [byte]) = true := by decide +kernel
  obtain ⟨text, hspelling, hbytes⟩ :=
    Option.map_eq_some_iff.mp (beq_iff_eq.mp (List.all_eq_true.mp key byte h))
  obtain ⟨kind, hkind, htext⟩ := Option.bind_eq_some_iff.mp hspelling
  exact ⟨kind, text, hkind, htext, hbytes⟩

/-- An operator of two characters has a kind, which is spelled by them. -/
theorem exists_ofPair? {first second : UInt8} (h : (first, second) ∈ Lexeme.pairs) :
    ∃ kind text, ofPair? first second = some kind ∧ kind.spelling? = some text
      ∧ Text.bytes text = [first, second] := by
  have key : (Lexeme.pairs.all fun pair => (ofPair? pair.1 pair.2).isSome
      && String.utf8EncodeChar (Char.ofUInt8 pair.1) == [pair.1]
      && String.utf8EncodeChar (Char.ofUInt8 pair.2) == [pair.2]) = true := by decide +kernel
  have hpair := List.all_eq_true.mp key _ h
  simp only [Bool.and_eq_true, beq_iff_eq] at hpair
  obtain ⟨⟨hsome, hfirst⟩, hsecond⟩ := hpair
  obtain ⟨kind, hkind⟩ := Option.isSome_iff_exists.mp hsome
  -- the kind was looked up by its spelling
  have hspelled := List.find?_some hkind
  simp only [Bool.and_eq_true, beq_iff_eq] at hspelled
  refine ⟨kind, _, hkind, hspelled.2, ?_⟩
  rw [Text.bytes_eq, String.toList_ofList, List.flatMap_cons, List.flatMap_cons, List.flatMap_nil,
    hfirst, hsecond]
  rfl

/-- An identifier is a keyword or a symbol, by its text. -/
theorem sorts_ident (text : String) : Sorts .ident text ((keyword? text).getD .symbol) := by
  by_cases htypedef : text = "typedef"
  · subst htypedef
    exact .typedef rfl
  · by_cases hstruct : text = "struct"
    · subst hstruct
      exact .struct rfl
    · have hnone : keyword? text = none := by
        unfold keyword?
        split
        · exact absurd rfl htypedef
        · exact absurd rfl hstruct
        · rfl
      rw [hnone]
      exact .symbol htypedef hstruct

/-- **Every lexeme that can be read** has a kind. -/
theorem exists_sorts {tag : Lexeme.Tag} {text : String} (h : Lexeme.Formed tag (Text.bytes text)) :
    ∃ kind, ofTag? text tag = some kind ∧ Sorts tag text kind := by
  generalize hbytes : Text.bytes text = bytes at h
  cases h with
  | whitespace => exact ⟨_, rfl, .whitespace⟩
  | lineFeed | carriageReturn => exact ⟨_, rfl, .newline⟩
  | lineComment => exact ⟨_, rfl, .lineComment⟩
  | blockComment => exact ⟨_, rfl, .blockComment⟩
  | ident => exact ⟨_, rfl, sorts_ident text⟩
  | number => exact ⟨_, rfl, .number⟩
  | string => exact ⟨_, rfl, .string⟩
  | single hmem =>
    obtain ⟨kind, text', hkind, hspelling, hbytes'⟩ := exists_ofByte? hmem
    obtain rfl := Text.bytes_inj.mp (hbytes.trans hbytes'.symm)
    exact ⟨kind, hkind, .single hbytes hspelling⟩
  | pair hmem =>
    obtain ⟨kind, text', hkind, hspelling, hbytes'⟩ := exists_ofPair? hmem
    obtain rfl := Text.bytes_inj.mp (hbytes.trans hbytes'.symm)
    exact ⟨kind, hkind, .pair hbytes hspelling⟩

end TokenKind

/-! ## §2. Faults -/

/-- What is wrong with a lexeme of an error class that starts at byte `start` of the source.
    A byte of no class is the first of the character that is there. -/
inductive LexFault.Blames (source : String) (start : Nat) : Lexeme.Tag → LexFault → Prop
  | illegalCharacter {before after : String} {char : Char} {byte : UInt8} :
      source = before ++ char.toString ++ after → before.utf8ByteSize = start →
      (String.utf8EncodeChar char).head? = some byte →
      Blames source start (.invalidByte byte) (.illegalCharacter char)
  | unterminatedString : Blames source start .unterminatedString .unterminatedString
  | unterminatedComment : Blames source start .unterminatedComment .unterminatedComment
  | interiorNull : Blames source start .interiorNull .interiorNull

/-- The byte of a lexeme of no class is the first one ahead. -/
theorem Lexeme.head_of_invalidByte {b byte : UInt8} {rest : List UInt8} {lexeme : Lexeme}
    (h : munch (b :: rest) = some lexeme) (htag : lexeme.tag = .invalidByte byte) : byte = b := by
  have hoperator : ∀ {x peek}, (munchOperator x peek).tag = .invalidByte byte → byte = x := by
    intro x peek hx
    unfold munchOperator at hx
    split_ifs at hx
    exact (Tag.invalidByte.inj hx).symm
  -- only an operator can be of no class, and its tag names its byte
  obtain rfl := Option.some.inj h
  split_ifs at htag
  · exact Tag.noConfusion htag
  · exact Tag.noConfusion htag
  · exact hoperator htag
  · unfold munchQuoted at htag
    dsimp only at htag
    split_ifs at htag
  · rename_i hslash
    unfold munchSlash at htag
    split_ifs at htag
    · split at htag
      · exact Tag.noConfusion htag
      · exact Tag.noConfusion htag
    · rw [hslash]
      exact hoperator htag
  · exact hoperator htag

/-- A character by the offset where it starts. -/
theorem Text.charAt?_append (before after : String) (char : Char) :
    charAt? (before ++ char.toString ++ after) before.utf8ByteSize = some char := by
  have hslice := slice_append before (char.toString ++ after) ""
  rw [String.append_empty, ← String.append_assoc] at hslice
  unfold charAt?
  rw [show (before ++ char.toString ++ after).utf8ByteSize
      = before.utf8ByteSize + (char.toString ++ after).utf8ByteSize by
    rw [String.append_assoc, String.utf8ByteSize_append], hslice, String.toList_append]
  simp

/-- **A lexeme of an error class** cannot be read, for what is wrong with it. -/
theorem LexFault.exists_blames (before : String) {ahead : String} {lexeme : Lexeme}
    (hmunch : Lexeme.munch (Text.bytes ahead) = some lexeme) (hbad : lexeme.tag.isError = true) :
    ∃ fault, TokenKind.ofLexeme (before ++ ahead) before.utf8ByteSize lexeme = .error fault
      ∧ Blames (before ++ ahead) before.utf8ByteSize lexeme.tag fault := by
  unfold TokenKind.ofLexeme
  cases htag : lexeme.tag with
  | unterminatedString => exact ⟨_, rfl, .unterminatedString⟩
  | unterminatedComment => exact ⟨_, rfl, .unterminatedComment⟩
  | interiorNull => exact ⟨_, rfl, .interiorNull⟩
  | invalidByte byte =>
    -- the character ahead is there, since a byte is
    cases hchars : ahead.toList with
    | nil =>
      rw [Text.bytes_eq, hchars] at hmunch
      simp [Lexeme.munch] at hmunch
    | cons char chars =>
      have hahead : ahead = char.toString ++ String.ofList chars := by
        rw [← String.toList_inj, hchars, String.toList_append, String.toList_ofList]
        simp
      have hsource : before ++ ahead = before ++ char.toString ++ String.ofList chars := by
        rw [hahead, String.append_assoc]
      have hhead : (String.utf8EncodeChar char).head? = some byte := by
        rw [Text.bytes_eq, hchars, List.flatMap_cons] at hmunch
        cases hencode : String.utf8EncodeChar char with
        | nil => exact absurd hencode (by simp)
        | cons b rest =>
          rw [hencode, List.cons_append] at hmunch
          rw [Lexeme.head_of_invalidByte hmunch htag]
          rfl
      refine ⟨.illegalCharacter char, ?_, .illegalCharacter hsource rfl hhead⟩
      dsimp only
      rw [hsource, Text.charAt?_append]
      rfl
  | _ =>
    rw [htag] at hbad
    exact Bool.noConfusion hbad

/-! ## §3. Reading -/

namespace Lexing

/-- The line behind a text that starts on the first one. -/
def lineBehind (text : String) : Nat := min (1 + Text.lineFeeds text) maxLine

theorem lineBehind_append (a b : String) :
    lineBehind (a ++ b) = min (lineBehind a + Text.lineFeeds b) maxLine := by
  unfold lineBehind
  rw [Text.lineFeeds_append]
  omega

/-- The token of a lexeme of the source: its kind, its text and its place. -/
structure Makes (source : String) (entry : Nat × Lexeme) (mark : Mark) : Prop where
  kind : TokenKind.Sorts entry.2.tag mark.2.1 mark.1
  text : mark.2.1 = Text.slice source entry.1 (entry.1 + entry.2.length)
  place : mark.2.2 = some ⟨entry.1, entry.1 + entry.2.length⟩

/-- How a reading ends: behind the last lexeme, or at one of an error class. -/
def Ends (source : String) (ahead : List (Nat × Lexeme)) : Option LexError → Prop
  | none => ahead = []
  | some error => ∃ start bad more, ahead = (start, bad) :: more ∧ bad.tag.isError = true
      ∧ LexFault.Blames source start bad.tag error.fault
      ∧ error.line = lineBehind (Text.slice source 0 start)

/-- What becomes of lexemes that are read behind the tokens of a spelling. -/
def Read (source : String) (spelling : Spelling) (lexemes : List (Nat × Lexeme))
    (state : Lexing) : Prop :=
  ∃ done ahead more, lexemes = done ++ ahead ∧ (∀ entry ∈ done, entry.2.tag.isError = false)
    ∧ List.Forall₂ (Makes source) done (Spelling.marksFrom spelling.text.utf8ByteSize more)
    ∧ state.tokens.marks = Spelling.marksFrom 0 (spelling ++ more)
    ∧ Ends source ahead state.error?

theorem Has.read_nil {source : String} {spelling : Spelling} {state : Lexing}
    (h : Has source state spelling) : Read source spelling [] state := by
  refine ⟨[], [], [], rfl, by simp, .nil, ?_, ?_⟩
  · rw [List.append_nil]
    exact h.marks
  · rw [h.error]
    exact rfl

/-- A lexeme of an error class stops the reading. -/
theorem Has.read_error {source post : String} {spelling : Spelling} {state : Lexing}
    {lexeme : Lexeme} (h : Has source state spelling)
    (hline : state.line = lineBehind spelling.text) (hsource : source = spelling.text ++ post)
    (hmunch : Lexeme.munch (Text.bytes post) = some lexeme) (hbad : lexeme.tag.isError = true)
    (more : List (Nat × Lexeme)) :
    Read source spelling ((spelling.text.utf8ByteSize, lexeme) :: more)
      (state.readFrom ((spelling.text.utf8ByteSize, lexeme) :: more)) := by
  obtain ⟨fault, hfault, hblames⟩ := LexFault.exists_blames spelling.text hmunch hbad
  rw [← hsource] at hfault hblames
  have hread : state.readFrom ((spelling.text.utf8ByteSize, lexeme) :: more)
      = { state with error? := some ⟨state.line, fault⟩ } := by
    unfold readFrom
    dsimp only
    rw [h.source_eq, hfault]
  have hbefore : Text.slice source 0 spelling.text.utf8ByteSize = spelling.text := by
    have hslice := Text.slice_append "" spelling.text post
    rwa [String.empty_append, ← hsource, String.utf8ByteSize_empty, Nat.zero_add] at hslice
  rw [hread]
  refine ⟨[], _, [], rfl, by simp, .nil, ?_, _, lexeme, _, rfl, hbad, hblames, ?_⟩
  · rw [List.append_nil]
    exact h.marks
  · rw [hbefore]
    exact hline

/-- A token made of one lexeme, before what becomes of the others. -/
theorem Read.cons {source text post : String} {spelling : Spelling} {kind : TokenKind}
    {lexeme : Lexeme} {lexemes : List (Nat × Lexeme)} {state : Lexing}
    (hsource : source = spelling.text ++ text ++ post)
    (hlength : lexeme.length = text.utf8ByteSize) (hsorts : TokenKind.Sorts lexeme.tag text kind)
    (hgood : lexeme.tag.isError = false)
    (h : Read source (spelling ++ [(kind, text)]) lexemes state) :
    Read source spelling ((spelling.text.utf8ByteSize, lexeme) :: lexemes) state := by
  obtain ⟨done, ahead, more, rfl, hdone, hmakes, hmarks, hends⟩ := h
  rw [List.append_assoc, List.singleton_append] at hmarks
  refine ⟨_ :: done, ahead, (kind, text) :: more, rfl, List.forall_mem_cons.mpr ⟨hgood, hdone⟩,
    .cons ⟨hsorts, ?_, ?_⟩ ?_, hmarks, hends⟩
  · dsimp only
    rw [hsource, hlength]
    exact (Text.slice_append _ _ _).symm
  · dsimp only
    rw [hlength]
  · rw [Spelling.text_snoc, String.utf8ByteSize_append] at hmakes
    exact hmakes

/-- **Reading makes one token of each lexeme**, up to the first that is of an error class. -/
theorem readFrom_makes (fuel : Nat) {source post : String} {spelling : Spelling}
    {state : Lexing} {c : Cursor} (h : Has source state spelling)
    (hline : state.line = lineBehind spelling.text) (hat : At source spelling post c) :
    Read source spelling (Lexeme.scanFrom fuel c) (state.readFrom (Lexeme.scanFrom fuel c)) := by
  induction fuel generalizing post spelling state c with
  | zero => exact h.read_nil
  | succ fuel ih =>
    cases hmunch : Lexeme.munch c.rest with
    | none =>
      have hscan : Lexeme.scanFrom (fuel + 1) c = [] := by
        unfold Lexeme.scanFrom
        rw [Lexeme.next?_eq, hmunch]
        rfl
      rw [hscan]
      exact h.read_nil
    | some lexeme =>
      rw [scanFrom_succ hmunch, hat.2.2]
      cases hbad : lexeme.tag.isError with
      | true =>
        rw [hat.rest] at hmunch
        exact h.read_error hline hat.1 hmunch hbad _
      | false =>
        obtain ⟨own, ahead, hsplit, hlength, hformed, hstops⟩ := Lexeme.munch_sound hmunch hbad
        -- a lexeme ends on a character of the source, so it is a piece of the text
        obtain ⟨text, post, rfl, rfl, rfl⟩ :=
          Text.exists_cut (hat.rest.symm.trans hsplit) (hformed.seam hstops)
        rw [Text.length_bytes] at hlength
        have hsource : source = spelling.text ++ text ++ post := by
          rw [hat.1, String.append_assoc]
        obtain ⟨kind, hkind, hsorts⟩ := TokenKind.exists_sorts hformed
        obtain ⟨next, hnext, hnextLine, -, hread⟩ := readFrom_step lexeme h hsource hlength hkind
          (Lexeme.scanFrom fuel (c.advance lexeme.length))
        have hline' : next.line = lineBehind (Spelling.text (spelling ++ [(kind, text)])) := by
          rw [hnextLine, hline, Spelling.text_snoc, lineBehind_append]
        rw [hread]
        exact (ih hnext hline' (hlength ▸ hat.advance kind)).cons hsource hlength hsorts hbad

end Lexing

/-- **A source is read** exactly when the scanner finds no error in it.  Then the tokens are
    those of its lexemes, one of each and in their order.  Else the first lexeme of an error
    class is what is wrong, on its line, and up to there the tokens are made just so. -/
theorem TokenList.lex_sorts (source : String) :
    ((∃ list, lex source = .ok list)
        ↔ ∀ entry ∈ Lexeme.scan source, entry.2.tag.isError = false)
      ∧ (∀ list, lex source = .ok list →
        List.Forall₂ (Lexing.Makes source) (Lexeme.scan source) list.marks)
      ∧ ∀ error, lex source = .error error → ∃ done start bad more,
        Lexeme.scan source = done ++ (start, bad) :: more
          ∧ (∀ entry ∈ done, entry.2.tag.isError = false) ∧ bad.tag.isError = true
          ∧ List.Forall₂ (Lexing.Makes source) done (Lexing.run source).tokens.marks
          ∧ LexFault.Blames source start bad.tag error.fault
          ∧ error.line = Lexing.lineBehind (Text.slice source 0 start) := by
  have hline : (1 : Nat) = Lexing.lineBehind (Spelling.text []) := by decide
  obtain ⟨done, ahead, more, hscan, hgood, hmakes, hmarks, hends⟩ :=
    Lexing.readFrom_makes (Text.bytes source).length (Lexing.has_start source) hline
      (Lexing.at_start source)
  -- what is known of reading a rest of the source, for the whole of it
  replace hscan : Lexeme.scan source = done ++ ahead := hscan
  replace hmarks : (Lexing.run source).tokens.marks = more.marksFrom 0 := hmarks
  replace hends : Lexing.Ends source ahead (Lexing.run source).error? := hends
  replace hmakes : List.Forall₂ (Lexing.Makes source) done (Lexing.run source).tokens.marks := by
    rw [hmarks]
    exact hmakes
  unfold lex
  dsimp only
  cases herror : (Lexing.run source).error? with
  | none =>
    rw [herror] at hends
    obtain rfl : ahead = [] := hends
    rw [List.append_nil] at hscan
    rw [hscan]
    refine ⟨⟨fun _ => hgood, fun _ => ⟨_, rfl⟩⟩, fun list hlist => ?_, fun error h => by simp at h⟩
    obtain rfl := Except.ok.inj hlist
    exact hmakes
  | some error =>
    rw [herror] at hends
    obtain ⟨start, bad, rest, rfl, hbad, hblames, hat⟩ := hends
    refine ⟨⟨fun h => by simp at h, fun hall => ?_⟩, fun list h => by simp at h,
      fun error' h => ?_⟩
    · have := hall (start, bad) (hscan ▸ List.mem_append_right done List.mem_cons_self)
      rw [hbad] at this
      exact Bool.noConfusion this
    · obtain rfl := Except.error.inj h
      exact ⟨done, start, bad, rest, hscan, hgood, hbad, hmakes, hblames, hat⟩

/-- A wide character within a comment is read, and outside of one it stops the reading, which
    names it. -/
theorem TokenList.lex_sorts_wideCharacter :
    (∃ list, lex "a<<=b/*é*/" = .ok list
      ∧ List.Forall₂ (Lexing.Makes "a<<=b/*é*/") (Lexeme.scan "a<<=b/*é*/") list.marks)
      ∧ ∃ done start bad more, lex "a\n é" = .error ⟨2, .illegalCharacter 'é'⟩
        ∧ Lexeme.scan "a\n é" = done ++ (start, bad) :: more
        ∧ (∀ entry ∈ done, entry.2.tag.isError = false) ∧ bad.tag.isError = true
        ∧ List.Forall₂ (Lexing.Makes "a\n é") done (Lexing.run "a\n é").tokens.marks
        ∧ LexFault.Blames "a\n é" start bad.tag (.illegalCharacter 'é')
        ∧ 2 = Lexing.lineBehind (Text.slice "a\n é" 0 start) := by
  constructor
  · have hok : (lex "a<<=b/*é*/").isOk = true := by decide +kernel
    cases hlex : lex "a<<=b/*é*/" with
    | error error => simp [hlex, Except.isOk, Except.toBool] at hok
    | ok list => exact ⟨list, rfl, (lex_sorts _).2.1 list hlex⟩
  · have hstop : (Lexing.run "a\n é").error? = some ⟨2, .illegalCharacter 'é'⟩ := by
      decide +kernel
    have hlex : lex "a\n é" = .error ⟨2, .illegalCharacter 'é'⟩ := by
      unfold lex
      dsimp only
      rw [hstop]
    obtain ⟨done, start, bad, more, hrest⟩ := (lex_sorts "a\n é").2.2 _ hlex
    exact ⟨done, start, bad, more, hlex, hrest⟩

end KernelPrep
