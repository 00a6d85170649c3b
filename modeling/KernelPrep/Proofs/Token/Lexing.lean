/-
  KernelPrep.Proofs.Token.Lexing — a source and the tokens read from it.

  Reading cuts the source into lexemes and makes a token of each.  Whatever was read spells
  the source up to where the reading stopped, piece by piece and cut between characters.  And
  a spelling that the scanner would cut just so is what reading its text gives back.

  Main definitions:
    * `TokenKind.Heads`  — a token with what may follow it;
    * `Spelling.Reads`   — a spelling that is cut as it says;
    * `TokenList.records` — the tokens of a list, as they were read;
    * `TokenList.marks`  — kinds, texts and places of them;
    * `TokenList.Tiles`  — the tokens lie side by side over the start of a source.

  Main statements:
    * `Lexing.readFrom_scan`  — what reading makes of a source;
    * `Lexing.readFrom_pass`  — reading passes over a spelling, whatever is behind it;
    * `Lexing.readFrom_reads` — a spelling is read back;
    * `Lexing.run_tiles`      — the tokens read lie side by side.
-/
import KernelPrep.Proofs.Lexeme.Follow
import KernelPrep.Proofs.Outline.Leaves
import KernelPrep.Proofs.Token.Spelling

namespace KernelPrep

/-! ## §1. Tokens and lexemes -/

/-- The kind of a token of the given text, by the class of its lexeme. -/
def TokenKind.ofTag? (text : String) : Lexeme.Tag → Option TokenKind
  | .whitespace => some .whitespace
  | .newline => some .eol
  | .lineComment | .blockComment => some .comment
  | .ident => some ((keyword? text).getD .symbol)
  | .number => some .number
  | .string => some .string
  | .single byte => ofByte? byte
  | .pair first second => ofPair? first second
  | _ => none

/-- The kind of a lexeme depends on its class and its text. -/
theorem TokenKind.ofLexeme_eq_ok {source text : String} {start : Nat} {lexeme : Lexeme}
    {kind : TokenKind} (htext : Text.slice source start (start + lexeme.length) = text) :
    ofLexeme source start lexeme = .ok kind ↔ ofTag? text lexeme.tag = some kind := by
  unfold ofLexeme ofTag?
  rw [htext]
  cases lexeme.tag with
  | single byte =>
    dsimp only
    cases ofByte? byte <;> simp
  | pair first second =>
    dsimp only
    cases ofPair? first second <;> simp
  | _ => simp

/-- A lexeme makes the same token, or cannot be read for the same reason, behind another
    text. -/
theorem TokenKind.ofLexeme_shift (a b : String) (start : Nat) (lexeme : Lexeme) :
    ofLexeme (a ++ b) (a.utf8ByteSize + start) lexeme = ofLexeme b start lexeme := by
  unfold ofLexeme
  rw [Nat.add_assoc, Text.slice_shift, Text.charAt?_shift]

/-- What has a kind is no error. -/
theorem TokenKind.isError_of_ofTag? {text : String} {tag : Lexeme.Tag} {kind : TokenKind}
    (h : ofTag? text tag = some kind) : tag.isError = false := by
  cases tag <;> first | rfl | simp [ofTag?] at h

namespace TokenKind

variable {text : String} {tag : Lexeme.Tag} {kind : TokenKind}

/-- An identifier is a symbol or one of the two keywords. -/
theorem keyword?_getD (text : String) :
    (keyword? text = none ∧ (keyword? text).getD .symbol = .symbol)
      ∨ (keyword? text).getD .symbol ∈ [.typedef, .struct] := by
  unfold keyword?
  split
  · exact Or.inr (by simp)
  · exact Or.inr (by simp)
  · exact Or.inl ⟨rfl, rfl⟩

/-- **The class of a lexeme** by the kind of its token: the numbers tell operators apart from
    all others. -/
theorem tag_of_kind (h : ofTag? text tag = some kind) (hcode : 0x200 ≤ kind.code) :
    (tag = .ident ∧ kind = (keyword? text).getD .symbol)
      ∨ (tag, kind) ∈ [(.whitespace, .whitespace), (.newline, .eol), (.lineComment, .comment),
        (.blockComment, .comment), (.number, .number), (.string, .string)] := by
  cases tag with
  | ident => exact Or.inl ⟨rfl, (Option.some.inj h).symm⟩
  | single byte =>
    have hbyte := byte.toNat_lt
    have hfind := List.find?_some h
    rw [beq_iff_eq] at hfind
    omega
  | pair first second =>
    have hfind := List.find?_some h
    simp only [Bool.and_eq_true, decide_eq_true_eq] at hfind
    omega
  | whitespace | newline | lineComment | blockComment | number | string =>
    obtain rfl := Option.some.inj h
    simp
  | _ => simp [ofTag?] at h

/-- An operator of one character is cut off as the byte of its number. -/
theorem tag_of_operator (h : ofTag? text tag = some kind) (hcode : kind.code < 0x100) :
    tag = .single (UInt8.ofNat kind.code) := by
  cases tag with
  | single byte =>
    have hfind := List.find?_some h
    rw [beq_iff_eq] at hfind
    rw [hfind, UInt8.ofNat_toNat]
  | pair first second =>
    have hfind := List.find?_some h
    simp only [Bool.and_eq_true, decide_eq_true_eq] at hfind
    omega
  -- the code of a word is beyond those of single bytes
  | ident =>
    rw [← Option.some.inj h] at hcode
    rcases keyword?_getD text with ⟨-, hsymbol⟩ | hkeyword
    · simp [hsymbol, code] at hcode
    · simp only [List.mem_cons, List.not_mem_nil, or_false] at hkeyword
      rcases hkeyword with hword | hword
      · simp [hword, code] at hcode
      · simp [hword, code] at hcode
  | whitespace | newline | lineComment | blockComment | number | string =>
    obtain rfl := Option.some.inj h
    simp [code] at hcode
  | _ => simp [ofTag?] at h

/-- Trivia is cut off as a blank, a line end or a comment. -/
theorem tag_of_trivia (h : ofTag? text tag = some kind) (hkind : kind.isTrivia = true) :
    tag ∈ [.whitespace, .newline, .lineComment, .blockComment] := by
  have hkinds : ∀ kind ∈ all, kind.isTrivia = true → 0x200 ≤ kind.code
      ∧ kind ∉ [.symbol, .typedef, .struct, .number, .string] := by decide
  obtain ⟨hcode, hother⟩ := hkinds kind (mem_all kind) hkind
  rcases tag_of_kind h hcode with ⟨-, hword⟩ | hpair
  · rcases keyword?_getD text with ⟨-, hsymbol⟩ | hkeyword
    · simp [hword, hsymbol] at hother
    · rw [← hword] at hkeyword
      simp_all
  · simp only [List.mem_cons, Prod.mk.injEq, List.not_mem_nil, or_false] at hpair hother ⊢
    tauto

/-- Line ends are cut off as such. -/
theorem tag_of_eol (h : ofTag? text tag = some .eol) : tag = .newline := by
  rcases tag_of_kind h (by decide) with ⟨-, hword⟩ | hother
  · rcases keyword?_getD text with ⟨-, hplain⟩ | hkeyword
    · simp [hplain] at hword
    · simp [← hword] at hkeyword
  · simpa using hother

end TokenKind

/-- A token of this kind and text is what the scanner cuts off before `rest`. -/
def TokenKind.Heads (kind : TokenKind) (text : String) (rest : List UInt8) : Prop :=
  ∃ tag, Lexeme.Formed tag (Text.bytes text) ∧ Lexeme.Stops (Text.bytes text) rest tag
    ∧ ofTag? text tag = some kind

/-- A token is read before everything that begins like what is behind it. -/
theorem TokenKind.Heads.alike {kind : TokenKind} {text : String} {old new : List UInt8}
    (h : kind.Heads text old) (halike : Lexeme.Alike old new) : kind.Heads text new := by
  obtain ⟨tag, hformed, hstops, htag⟩ := h
  exact ⟨tag, hformed, halike.stops hstops, htag⟩

/-- The scanner cuts the tokens of the spelling off one by one, when `rest` follows them. -/
def Spelling.Reads : Spelling → List UInt8 → Prop
  | [], _ => True
  | (kind, text) :: tokens, rest =>
    kind.Heads text (Text.bytes (Spelling.text tokens) ++ rest) ∧ Spelling.Reads tokens rest

/-- The first token is cut off, and the others from what is behind it. -/
theorem Spelling.reads_cons {kind : TokenKind} {text : String} {tokens : Spelling}
    {rest : List UInt8} : Spelling.Reads ((kind, text) :: tokens) rest
      ↔ kind.Heads text (Text.bytes (Spelling.text tokens) ++ rest) ∧ tokens.Reads rest :=
  Iff.rfl

/-- One row of tokens before another. -/
theorem Spelling.reads_append {a b : Spelling} {rest : List UInt8} :
    (a ++ b).Reads rest ↔ a.Reads (Text.bytes b.text ++ rest) ∧ b.Reads rest := by
  induction a with
  | nil => exact ⟨fun h => ⟨trivial, h⟩, fun h => h.2⟩
  | cons entry a ih =>
    obtain ⟨kind, text⟩ := entry
    rw [List.cons_append, reads_cons, reads_cons, ih, Spelling.text_append, Text.bytes_append,
      List.append_assoc, and_assoc]

/-! ## §2. The tokens of a list -/

/-- What a token holds from being read; its links say only where it is kept. -/
structure Token.Record where
  kind : TokenKind
  text : String
  line : Nat
  span? : Option Span
deriving DecidableEq, Repr

/-- The tokens of the file, as they were read. -/
def TokenList.records (list : TokenList) : List Token.Record :=
  list.ids.filterMap fun id => (list.get? id).map fun token =>
    ⟨token.kind, token.text, token.line, token.span?⟩

/-- A token by kind, text and place in the source. -/
abbrev Mark := TokenKind × String × Option Span

/-- The tokens of the file, by kind, text and place in the source. -/
def TokenList.marks (list : TokenList) : List Mark :=
  list.ids.filterMap fun id => (list.get? id).map fun token =>
    (token.kind, token.text, token.span?)

/-- The tokens of a spelling side by side, the first at the given offset. -/
def Spelling.marksFrom (start : Nat) : Spelling → List Mark
  | [] => []
  | (kind, text) :: rest =>
    (kind, text, some ⟨start, start + text.utf8ByteSize⟩)
      :: Spelling.marksFrom (start + text.utf8ByteSize) rest

/-- The second of two rows starts where the first one ends. -/
theorem Spelling.marksFrom_append (start : Nat) (a b : Spelling) :
    Spelling.marksFrom start (a ++ b)
      = Spelling.marksFrom start a ++ Spelling.marksFrom (start + a.text.utf8ByteSize) b := by
  induction a generalizing start with
  | nil => rfl
  | cons entry a ih =>
    obtain ⟨kind, text⟩ := entry
    rw [List.cons_append, marksFrom, marksFrom, List.cons_append, ih, Spelling.text_cons,
      String.utf8ByteSize_append, Nat.add_assoc]

/-- Without their places the marks are the tokens. -/
theorem Spelling.map_marksFrom (start : Nat) (spelling : Spelling) :
    (spelling.marksFrom start).map (fun mark => (mark.1, mark.2.1)) = spelling := by
  induction spelling generalizing start with
  | nil => rfl
  | cons entry rest ih =>
    obtain ⟨kind, text⟩ := entry
    rw [marksFrom, List.map_cons, ih]

/-- The tokens of a spelling side by side, the first at the given offset and on the given
    line.  Lines are not counted beyond the largest one. -/
def Spelling.recordsFrom (start line : Nat) : Spelling → List Token.Record
  | [] => []
  | (kind, text) :: rest =>
    ⟨kind, text, line, some ⟨start, start + text.utf8ByteSize⟩⟩
      :: Spelling.recordsFrom (start + text.utf8ByteSize)
        (min (line + Text.lineFeeds text) maxLine) rest

/-- The line behind the tokens of a spelling whose first is on the given line. -/
def Spelling.lineFrom (line : Nat) : Spelling → Nat
  | [] => line
  | (_, text) :: rest => Spelling.lineFrom (min (line + Text.lineFeeds text) maxLine) rest

namespace TokenList

variable {list : TokenList}

/-- A file is spelled by its marks. -/
theorem spells_eq_marks (list : TokenList) :
    list.spells list.ids = list.marks.map fun mark => (mark.1, mark.2.1) := by
  unfold spells marks
  rw [List.map_filterMap]
  refine List.filterMap_congr fun id _ => ?_
  rw [Option.map_map]
  rfl

/-- Appending a token leaves the source as it is. -/
theorem source_append (list : TokenList) (kind : TokenKind) (span : Span) (line : Nat) :
    (list.append kind span line).2.source = list.source := by
  unfold append link
  cases list.tail? <;> rfl

/-- The marks are part of the records. -/
theorem marks_eq_records (list : TokenList) :
    list.marks = list.records.map fun record => (record.kind, record.text, record.span?) := by
  unfold marks records
  rw [List.map_filterMap]
  refine List.filterMap_congr fun id _ => ?_
  rw [Option.map_map]
  rfl

/-- **One more token read.** -/
theorem Unedited.records_append (h : list.Unedited) (kind : TokenKind) (span : Span)
    (line : Nat) :
    (list.append kind span line).2.records = list.records
      ++ [⟨kind, Text.slice list.source span.start span.stop, line, some span⟩] := by
  have hnew := append_threaded h.threaded h.loose kind span line
  -- linking changes nothing of what was read
  have hrecord : ∀ x, ((list.append kind span line).2.get? x).map
        (fun token => Token.Record.mk token.kind token.text token.line token.span?)
      = if x = list.nextId then
          some ⟨kind, Text.slice list.source span.start span.stop, line, some span⟩
        else (list.get? x).map fun token => ⟨token.kind, token.text, token.line, token.span?⟩ := by
    intro x
    show (((list.alloc _).link list.tail? (some list.nextId)).get? x).map _ = _
    rw [get?_link, get?_alloc, Option.map_map]
    split
    · rfl
    · rfl
  unfold records
  rw [hnew.ids_eq, h.ids_eq, List.filterMap_append]
  congr 1
  · refine List.filterMap_congr fun id hid => ?_
    rw [hrecord, if_neg]
    rintro rfl
    rw [← h.ids_eq, h.mem_ids_iff] at hid
    exact Nat.lt_irrefl _ hid
  · rw [List.filterMap_cons, hrecord, if_pos rfl]
    rfl

/-- A token that is appended comes behind the others. -/
theorem Unedited.marks_append (h : list.Unedited) (kind : TokenKind) (span : Span)
    (line : Nat) :
    (list.append kind span line).2.marks
      = list.marks ++ [(kind, Text.slice list.source span.start span.stop, some span)] := by
  rw [marks_eq_records, h.records_append, List.map_append, ← marks_eq_records]
  rfl

end TokenList

/-! ## §3. Reading -/

namespace Lexing

/-- The tokens made so far are those of the spelling, side by side. -/
structure Has (source : String) (state : Lexing) (spelling : Spelling) : Prop where
  source_eq : state.tokens.source = source
  unedited : state.tokens.Unedited
  marks : state.tokens.marks = spelling.marksFrom 0
  error : state.error? = none

/-- One lexeme of the source, read. -/
theorem readFrom_step {source text post : String} {spelling : Spelling} {state : Lexing}
    {kind : TokenKind} (lexeme : Lexeme) (h : Has source state spelling)
    (hsource : source = spelling.text ++ text ++ post)
    (hlength : lexeme.length = text.utf8ByteSize)
    (hkind : TokenKind.ofTag? text lexeme.tag = some kind) (more : List (Nat × Lexeme)) :
    ∃ next, Has source next (spelling ++ [(kind, text)])
      ∧ next.line = min (state.line + Text.lineFeeds text) maxLine
      ∧ next.tokens.records = state.tokens.records ++ [⟨kind, text, state.line,
        some ⟨spelling.text.utf8ByteSize, spelling.text.utf8ByteSize + text.utf8ByteSize⟩⟩]
      ∧ state.readFrom ((spelling.text.utf8ByteSize, lexeme) :: more) = next.readFrom more := by
  -- the lexeme's span is cut at ends of whole texts, so the slice is its text
  have hslice : Text.slice source spelling.text.utf8ByteSize
      (spelling.text.utf8ByteSize + lexeme.length) = text := by
    rw [hsource, hlength]
    exact Text.slice_append _ _ _
  let span := Span.ofLength spelling.text.utf8ByteSize lexeme.length
  have hspan : span = ⟨spelling.text.utf8ByteSize,
      spelling.text.utf8ByteSize + text.utf8ByteSize⟩ := by rw [← hlength]; rfl
  refine ⟨{ tokens := (state.tokens.append kind span state.line).2
            line := min (state.line + Text.lineFeeds (Text.slice source span.start span.stop))
              maxLine }, ⟨?_, h.unedited.append _ _ _, ?_, rfl⟩, ?_, ?_, ?_⟩
  · exact (TokenList.source_append _ _ _ _).trans h.source_eq
  · dsimp only
    rw [h.unedited.marks_append, h.marks, h.source_eq, Spelling.marksFrom_append, Nat.zero_add,
      show Text.slice source span.start span.stop = text from hslice, hspan]
    rfl
  · exact congrArg (fun text => min (state.line + Text.lineFeeds text) maxLine) hslice
  · dsimp only
    rw [h.unedited.records_append, h.source_eq,
      show Text.slice source span.start span.stop = text from hslice, hspan]
  · conv => lhs; unfold readFrom
    dsimp only
    rw [h.source_eq, (TokenKind.ofLexeme_eq_ok hslice).mpr hkind]

/-- A cursor behind the tokens of a spelling. -/
def At (source : String) (spelling : Spelling) (post : String) (c : Cursor) : Prop :=
  source = spelling.text ++ post ∧ c.source = Text.bytes source
    ∧ c.pos = spelling.text.utf8ByteSize

/-- What is ahead of a cursor is the text behind the tokens read. -/
theorem At.rest {source post : String} {spelling : Spelling} {c : Cursor}
    (h : At source spelling post c) : c.rest = Text.bytes post := by
  obtain ⟨rfl, hsource, hpos⟩ := h
  rw [c.rest_eq, hsource, hpos, Text.bytes_append, ← Text.length_bytes, List.drop_left]

/-- Behind one more token. -/
theorem At.advance {source text post : String} {spelling : Spelling} {c : Cursor}
    (h : At source spelling (text ++ post) c) (kind : TokenKind) :
    At source (spelling ++ [(kind, text)]) post (c.advance text.utf8ByteSize) := by
  obtain ⟨rfl, hsource, hpos⟩ := h
  refine ⟨?_, hsource, ?_⟩
  · rw [Spelling.text_snoc, String.append_assoc]
  · rw [Cursor.pos_advance, hpos, Spelling.text_snoc, String.utf8ByteSize_append]

/-- The scan goes on behind the lexeme at the cursor. -/
theorem scanFrom_succ {fuel : Nat} {c : Cursor} {lexeme : Lexeme}
    (h : Lexeme.munch c.rest = some lexeme) :
    Lexeme.scanFrom (fuel + 1) c
      = (c.pos, lexeme) :: Lexeme.scanFrom fuel (c.advance lexeme.length) := by
  conv => lhs; unfold Lexeme.scanFrom
  rw [Lexeme.next?_eq, h]
  rfl

/-- What stops the reading at the start of a text: the end, or a lexeme that cannot be read. -/
def Halts (post : String) : Option LexFault → Prop
  | none => post = ""
  | some fault => ∃ lexeme, Lexeme.munch (Text.bytes post) = some lexeme
      ∧ TokenKind.ofLexeme post 0 lexeme = .error fault

/-- **Every source** is a spelling that is cut as it says and a text that stops the reading. -/
theorem exists_halts (source : String) : ∃ spelling post fault?,
    source = Spelling.text spelling ++ post ∧ spelling.Reads (Text.bytes post)
      ∧ Halts post fault? := by
  -- the induction is on the length: what is behind a lexeme is shorter
  induction hlength : (Text.bytes source).length using Nat.strong_induction_on
    generalizing source with
  | _ n ih =>
    have hstart : source = Spelling.text [] ++ source := String.empty_append.symm
    cases hmunch : Lexeme.munch (Text.bytes source) with
    | none =>
      have hnil : source = "" := by
        refine Text.bytes_eq_nil.mp ?_
        cases hbytes : Text.bytes source with
        | nil => rfl
        | cons b rest => simp [hbytes, Lexeme.munch] at hmunch
      exact ⟨[], source, none, hstart, trivial, hnil⟩
    | some lexeme =>
      cases hkind : TokenKind.ofLexeme source 0 lexeme with
      | error fault => exact ⟨[], source, some fault, hstart, trivial, lexeme, hmunch, hkind⟩
      | ok kind =>
        have hok : lexeme.tag.isError = false :=
          TokenKind.isError_of_ofTag? ((TokenKind.ofLexeme_eq_ok rfl).mp hkind)
        obtain ⟨own, ahead, hsplit, hown, hformed, hstops⟩ := Lexeme.munch_sound hmunch hok
        obtain ⟨text, rest, rfl, rfl, rfl⟩ := Text.exists_cut hsplit (hformed.seam hstops)
        rw [Text.length_bytes] at hown
        have htag : TokenKind.ofTag? text lexeme.tag = some kind := by
          refine (TokenKind.ofLexeme_eq_ok ?_).mp hkind
          rw [hown]
          simpa using Text.slice_append "" text rest
        have hpos : 0 < (Text.bytes text).length := List.length_pos_iff.mpr hformed.ne_nil
        rw [Text.bytes_append, List.length_append] at hlength
        obtain ⟨spelling, post, fault?, rfl, hreads, hhalts⟩ := ih _ (by omega) rest rfl
        rw [Text.bytes_append] at hstops
        refine ⟨(kind, text) :: spelling, post, fault?, ?_,
          ⟨⟨lexeme.tag, hformed, hstops, htag⟩, hreads⟩, hhalts⟩
        rw [Spelling.text_cons, String.append_assoc]

/-- **Reading passes over a spelling** that is cut as it says before what is behind it. -/
theorem readFrom_pass {fuel : Nat} {source post : String} {spelling more : Spelling}
    {state : Lexing} {c : Cursor} (h : Has source state spelling)
    (hat : At source spelling (more.text ++ post) c) (hmore : more.Reads (Text.bytes post))
    (hfuel : (Text.bytes (more.text ++ post)).length ≤ fuel) :
    ∃ next fuel' c', Has source next (spelling ++ more) ∧ At source (spelling ++ more) post c'
      ∧ (Text.bytes post).length ≤ fuel' ∧ next.line = more.lineFrom state.line
      ∧ next.tokens.records = state.tokens.records
        ++ more.recordsFrom spelling.text.utf8ByteSize state.line
      ∧ Lexeme.scanFrom fuel' c' ⊆ Lexeme.scanFrom fuel c
      ∧ state.readFrom (Lexeme.scanFrom fuel c) = next.readFrom (Lexeme.scanFrom fuel' c') := by
  induction more generalizing fuel spelling state c with
  | nil =>
    have hpost : Spelling.text [] ++ post = post := String.empty_append
    rw [hpost] at hat hfuel
    refine ⟨state, fuel, c, ?_, ?_, hfuel, rfl, ?_, List.Subset.refl _, rfl⟩
    · rwa [List.append_nil]
    · rwa [List.append_nil]
    · exact (List.append_nil _).symm
  | cons entry more ih =>
    obtain ⟨kind, text⟩ := entry
    obtain ⟨⟨tag, hformed, hstops, htag⟩, hmore⟩ := hmore
    rw [Spelling.text_cons, String.append_assoc] at hat hfuel
    rw [← Text.bytes_append] at hstops
    have hpos : 0 < (Text.bytes text).length := List.length_pos_iff.mpr hformed.ne_nil
    rw [Text.bytes_append, List.length_append] at hfuel
    cases fuel with
    | zero => omega
    | succ fuel =>
      -- the scanner cuts off the first token of the spelling
      have hmunch : Lexeme.munch c.rest = some ⟨tag, text.utf8ByteSize⟩ := by
        rw [hat.rest, Text.bytes_append, Lexeme.munch_formed hformed hstops, Text.length_bytes]
      have hsource : source = spelling.text ++ text ++ (Spelling.text more ++ post) := by
        rw [hat.1, String.append_assoc]
      obtain ⟨next, hnext, hline, hrecords, hread⟩ :=
        readFrom_step ⟨tag, text.utf8ByteSize⟩ h hsource rfl htag
          (Lexeme.scanFrom fuel (c.advance text.utf8ByteSize))
      have hleft : (Text.bytes (Spelling.text more ++ post)).length ≤ fuel := by omega
      -- and goes on to the others from behind it
      obtain ⟨last, fuel', c', hlast, hat', hfuel', hline', hrecords', hscan, hread'⟩ :=
        ih hnext (hat.advance kind) hmore hleft
      rw [List.append_assoc, List.singleton_append] at hlast hat'
      refine ⟨last, fuel', c', hlast, hat', hfuel', ?_, ?_, ?_, ?_⟩
      · rw [hline', hline]
        rfl
      · rw [hrecords', hrecords, Spelling.text_snoc, String.utf8ByteSize_append, hline,
          List.append_assoc]
        rfl
      · rw [scanFrom_succ hmunch]
        exact List.subset_cons_of_subset _ hscan
      · rw [scanFrom_succ hmunch, hat.2.2, hread, hread']

/-- Behind the end of a source there is nothing to scan. -/
theorem At.scanFrom_end {source : String} {spelling : Spelling} {c : Cursor}
    (h : At source spelling "" c) (fuel : Nat) : Lexeme.scanFrom fuel c = [] := by
  cases fuel with
  | zero => rfl
  | succ fuel =>
    unfold Lexeme.scanFrom
    rw [Lexeme.next?_eq, h.rest]
    rfl

/-- The lexeme behind a spelling is scanned there. -/
theorem At.scanFrom_cons {fuel : Nat} {source post : String} {spelling : Spelling} {c : Cursor}
    (hat : At source spelling post c) (hfuel : (Text.bytes post).length ≤ fuel) {lexeme : Lexeme}
    (hmunch : Lexeme.munch (Text.bytes post) = some lexeme) :
    ∃ more, Lexeme.scanFrom fuel c = (spelling.text.utf8ByteSize, lexeme) :: more := by
  obtain ⟨fuel, rfl⟩ : ∃ n, fuel = n + 1 := by
    refine Nat.exists_eq_add_one_of_ne_zero fun hzero => ?_
    rw [hzero] at hfuel
    rw [List.length_eq_zero_iff.mp (Nat.le_zero.mp hfuel)] at hmunch
    simp [Lexeme.munch] at hmunch
  rw [← hat.rest] at hmunch
  rw [scanFrom_succ hmunch, hat.2.2]
  exact ⟨_, rfl⟩

/-- **Where the reading stops**, nothing but the fault is added. -/
theorem Has.readFrom_halts {fuel : Nat} {source post : String} {spelling : Spelling}
    {state : Lexing} {c : Cursor} {fault? : Option LexFault} (h : Has source state spelling)
    (hat : At source spelling post c) (hfuel : (Text.bytes post).length ≤ fuel)
    (hhalts : Halts post fault?) :
    state.readFrom (Lexeme.scanFrom fuel c)
      = { state with error? := fault?.map fun fault => ⟨state.line, fault⟩ } := by
  cases fault? with
  | none =>
    obtain rfl : post = "" := hhalts
    rw [hat.scanFrom_end, Option.map_none, ← h.error]
    rfl
  | some fault =>
    obtain ⟨lexeme, hmunch, hfault⟩ := hhalts
    have hkind := TokenKind.ofLexeme_shift spelling.text post 0 lexeme
    rw [hfault, ← hat.1, Nat.add_zero] at hkind
    obtain ⟨more, hscan⟩ := hat.scanFrom_cons hfuel hmunch
    rw [hscan]
    unfold readFrom
    dsimp only
    rw [h.source_eq, hkind]
    rfl

/-- **What reading makes of a source**: it gets through, or it stops at a lexeme that cannot be
    read; the tokens made spell what was read. -/
theorem readFrom_scan {fuel : Nat} {source post : String} {spelling : Spelling}
    {state : Lexing} {c : Cursor} (h : Has source state spelling) (hat : At source spelling post c)
    (hfuel : (Text.bytes post).length ≤ fuel) :
    ∃ more post', post = Spelling.text more ++ post' ∧ more.Reads (Text.bytes post')
      ∧ (state.readFrom (Lexeme.scanFrom fuel c)).tokens.Unedited
      ∧ (state.readFrom (Lexeme.scanFrom fuel c)).tokens.marks
        = Spelling.marksFrom 0 (spelling ++ more)
      ∧ (((state.readFrom (Lexeme.scanFrom fuel c)).error? = none ∧ post' = "")
        ∨ ∃ error lexeme, (state.readFrom (Lexeme.scanFrom fuel c)).error? = some error
          ∧ ((spelling ++ more).text.utf8ByteSize, lexeme) ∈ Lexeme.scanFrom fuel c
          ∧ TokenKind.ofLexeme source (spelling ++ more).text.utf8ByteSize lexeme
            = .error error.fault) := by
  obtain ⟨more, post', fault?, rfl, hreads, hhalts⟩ := exists_halts post
  obtain ⟨next, fuel', c', hnext, hat', hfuel', -, -, hscan, hread⟩ :=
    readFrom_pass h hat hreads hfuel
  rw [hread, hnext.readFrom_halts hat' hfuel' hhalts]
  refine ⟨more, post', rfl, hreads, hnext.unedited, hnext.marks, ?_⟩
  cases fault? with
  | none => exact Or.inl ⟨rfl, hhalts⟩
  | some fault =>
    obtain ⟨lexeme, hmunch, hfault⟩ := hhalts
    obtain ⟨ahead, hahead⟩ := hat'.scanFrom_cons hfuel' hmunch
    refine Or.inr ⟨⟨next.line, fault⟩, lexeme, rfl, ?_, ?_⟩
    · exact hscan (hahead ▸ List.mem_cons_self)
    · have hkind := TokenKind.ofLexeme_shift (spelling ++ more).text post' 0 lexeme
      rwa [hfault, ← hat'.1, Nat.add_zero] at hkind

/-- **A spelling is read back** from its text. -/
theorem readFrom_reads {fuel : Nat} {source : String} {spelling more : Spelling}
    {state : Lexing} {c : Cursor} (h : Has source state spelling)
    (hat : At source spelling (Spelling.text more) c) (hmore : more.Reads [])
    (hfuel : (Text.bytes (Spelling.text more)).length ≤ fuel) :
    Has source (state.readFrom (Lexeme.scanFrom fuel c)) (spelling ++ more) := by
  rw [← String.append_empty (s := Spelling.text more)] at hat hfuel
  obtain ⟨next, fuel', c', hnext, hat', -, -, -, -, hread⟩ := readFrom_pass h hat hmore hfuel
  rw [hread, hat'.scanFrom_end]
  exact hnext

/-- Before the reading no token is made. -/
theorem has_start (source : String) : Has source { tokens := TokenList.empty source } [] where
  source_eq := rfl
  unedited := TokenList.unedited_empty source
  marks := rfl
  error := rfl

/-- Before the reading the whole source is ahead. -/
theorem at_start (source : String) : At source [] source (Cursor.start (Text.bytes source)) := by
  refine ⟨?_, rfl, rfl⟩
  simp [Spelling.text]

end Lexing

/-- **Reading the text of a spelling** that is cut as it says gives the spelling. -/
theorem TokenList.lex_of_reads {spelling : Spelling} (h : spelling.Reads []) :
    ∃ list, TokenList.lex spelling.text = .ok list ∧ list.spells list.ids = spelling := by
  have hrun := Lexing.readFrom_reads (Lexing.has_start spelling.text)
    (Lexing.at_start spelling.text) h (Nat.le_refl _)
  rw [List.nil_append] at hrun
  refine ⟨(Lexing.run spelling.text).tokens, ?_, ?_⟩
  · unfold TokenList.lex
    dsimp only
    rw [show (Lexing.run spelling.text).error? = none from hrun.error]
  · rw [TokenList.spells_eq_marks, show (Lexing.run spelling.text).tokens.marks = _ from hrun.marks,
      Spelling.map_marksFrom]

/-- **The tokens of a source** are cut as they say, and spell it. -/
theorem TokenList.lex_reads {source : String} {list : TokenList}
    (h : TokenList.lex source = .ok list) :
    (list.spells list.ids).Reads [] ∧ (list.spells list.ids).text = source := by
  obtain ⟨spelling, ahead, hsource, hreads, -, hmarks, hend⟩ :=
    Lexing.readFrom_scan (Lexing.has_start source) (Lexing.at_start source) (Nat.le_refl _)
  rw [List.nil_append] at hmarks
  unfold TokenList.lex at h
  dsimp only at h
  split at h
  · simp at h
  · rename_i hnone
    obtain rfl := Except.ok.inj h
    rcases hend with ⟨-, rfl⟩ | ⟨error, lexeme, herror, -⟩
    · rw [String.append_empty] at hsource
      -- nothing is left ahead, so that the marks are of the whole source
      have hspells : (Lexing.run source).tokens.spells (Lexing.run source).tokens.ids
          = spelling := by
        rw [spells_eq_marks, show (Lexing.run source).tokens.marks = _ from hmarks,
          Spelling.map_marksFrom]
      rw [hspells]
      exact ⟨by simpa using hreads, hsource.symm⟩
    · rw [show (Lexing.run source).error? = _ from herror] at hnone
      simp at hnone

/-- A token that starts with a letter is a keyword or a symbol. -/
theorem TokenKind.Heads.eq_of_start {kind : TokenKind} {text : String} {rest : List UInt8}
    (h : kind.Heads text rest) (hstart : Lexeme.isIdentStart ((Text.bytes text).headD 0) = true) :
    kind = (keyword? text).getD .symbol := by
  obtain ⟨tag, hformed, -, htag⟩ := h
  rw [hformed.tag_of_start hstart] at htag
  exact (Option.some.inj htag).symm

/-- Every token of a spelling that is read stands before the text of those behind it. -/
theorem Spelling.Reads.heads {a b : Spelling} {kind : TokenKind} {text : String}
    {rest : List UInt8} (h : Spelling.Reads (a ++ (kind, text) :: b) rest) :
    kind.Heads text (Text.bytes (Spelling.text b) ++ rest) :=
  (Spelling.reads_append.mp h).2.1

/-- The first token of a row, and the others. -/
theorem TokenList.spells_cons {list : TokenList} {id : TokenId} {token : Token}
    (h : list.get? id = some token) (ids : List TokenId) :
    list.spells (id :: ids) = (token.kind, token.text) :: list.spells ids := by
  unfold spells
  rw [List.filterMap_cons, h]
  rfl

/-- A token of a file that is read starts with a letter only if it is a keyword or a symbol. -/
theorem TokenList.kind?_of_start {list : TokenList} (h : (list.spells list.ids).Reads [])
    {id : TokenId} (hid : id ∈ list.ids)
    (hstart : Lexeme.isIdentStart ((Text.bytes (list.textOf id)).headD 0) = true) :
    list.kind? id = some ((TokenKind.keyword? (list.textOf id)).getD .symbol) := by
  unfold textOf at hstart ⊢
  unfold kind?
  cases htoken : list.get? id with
  | none =>
    rw [htoken] at hstart
    simp [Text.bytes_empty, Lexeme.isIdentStart] at hstart
  | some token =>
    rw [htoken] at hstart
    obtain ⟨before, behind, hids⟩ := List.append_of_mem hid
    rw [hids, spells_append, spells_cons htoken] at h
    exact congrArg some (h.heads.eq_of_start hstart)

/-- A leaf of a file that is read starts with a letter only if it is a keyword or a symbol. -/
theorem TokenList.kind_of_start {list : TokenList} (h : (list.spells list.ids).Reads [])
    {leaf : Leaf} (hleaf : leaf ∈ list.leaves)
    (hstart : Lexeme.isIdentStart ((Text.bytes leaf.text).headD 0) = true) :
    leaf.kind = (TokenKind.keyword? leaf.text).getD .symbol := by
  obtain ⟨hmem, hkind, htext⟩ := TokenList.leaf_token hleaf
  rw [← htext] at hstart
  rw [TokenList.kind?_of_start h hmem hstart, htext] at hkind
  exact (Option.some.inj hkind).symm

/-! ## §4. Places in the source -/

/-- The spans lie side by side from `start` to `stop`, and none is empty. -/
def Span.Tile : Nat → List Span → Nat → Prop
  | start, [], stop => start = stop
  | start, span :: rest, stop =>
    span.start = start ∧ span.start < span.stop ∧ Span.Tile span.stop rest stop

/-- The offset is between two characters of the text, or at one of its ends. -/
def Text.IsBoundary (text : String) (offset : Nat) : Prop := String.Pos.Raw.IsValid text ⟨offset⟩

/-- The places of the tokens of the file. -/
def TokenList.spans (list : TokenList) : List Span := list.marks.filterMap (·.2.2)

/-- The tokens of the file are those of the source up to the end of `done`, side by side. -/
structure TokenList.Tiles (list : TokenList) (source done : String) : Prop where
  tile : Span.Tile 0 list.spans done.utf8ByteSize
  aligned : ∀ span ∈ list.spans,
    Text.IsBoundary source span.start ∧ Text.IsBoundary source span.stop
  placed : ∀ id ∈ list.ids, ∃ token span, list.get? id = some token ∧ token.span? = some span
    ∧ span ∈ list.spans ∧ token.text = Text.slice source span.start span.stop ∧ token.text ≠ ""
  text : list.text = done

/-- Tokens that are not empty lie side by side. -/
theorem Spelling.tile_marksFrom {spelling : Spelling} (h : ∀ entry ∈ spelling, entry.2 ≠ "")
    (start : Nat) :
    Span.Tile start ((spelling.marksFrom start).filterMap (·.2.2))
      (start + spelling.text.utf8ByteSize) := by
  induction spelling generalizing start with
  | nil => exact rfl
  | cons entry rest ih =>
    obtain ⟨kind, text⟩ := entry
    have hpos : 0 < text.utf8ByteSize := by
      rw [← Text.length_bytes]
      exact List.length_pos_iff.mpr (mt Text.bytes_eq_nil.mp (h _ List.mem_cons_self))
    refine ⟨rfl, Nat.lt_add_of_pos_right hpos, ?_⟩
    rw [Spelling.text_cons, String.utf8ByteSize_append, ← Nat.add_assoc]
    exact ih (fun entry hentry => h entry (List.mem_cons_of_mem _ hentry)) _

/-- Each token of a spelling lies between two characters of its source. -/
theorem Spelling.mem_marksFrom {spelling : Spelling} (before after : String) {mark : Mark}
    (h : mark ∈ spelling.marksFrom before.utf8ByteSize) :
    ∃ pre post span, mark.2.2 = some span
      ∧ before ++ spelling.text ++ after = pre ++ mark.2.1 ++ post
      ∧ span.start = pre.utf8ByteSize ∧ span.stop = pre.utf8ByteSize + mark.2.1.utf8ByteSize := by
  induction spelling generalizing before with
  | nil => simp [marksFrom] at h
  | cons entry rest ih =>
    obtain ⟨kind, text⟩ := entry
    rw [marksFrom] at h
    rw [Spelling.text_cons]
    rcases List.mem_cons.mp h with rfl | h
    · refine ⟨before, Spelling.text rest ++ after, _, rfl, ?_, rfl, rfl⟩
      simp only [String.append_assoc]
    · rw [← String.utf8ByteSize_append] at h
      obtain ⟨pre, post, span, hspan, hsplit, hends⟩ := ih _ h
      refine ⟨pre, post, span, hspan, ?_, hends⟩
      rw [← hsplit]
      simp only [String.append_assoc]

/-- The scanner cuts off no empty token. -/
theorem Spelling.Reads.ne_empty {spelling : Spelling} {rest : List UInt8}
    (h : spelling.Reads rest) : ∀ entry ∈ spelling, entry.2 ≠ "" := by
  induction spelling with
  | nil => simp
  | cons entry more ih =>
    obtain ⟨kind, text⟩ := entry
    obtain ⟨⟨tag, hformed, -⟩, hmore⟩ := h
    refine List.forall_mem_cons.mpr ⟨?_, ih hmore⟩
    exact mt Text.bytes_eq_nil.mpr hformed.ne_nil

/-- The tokens of a spelling that was read lie side by side. -/
theorem TokenList.tiles_of_marks {list : TokenList} {spelling : Spelling} {rest : List UInt8}
    (post : String) (hlive : ∀ id ∈ list.ids, ∃ token, list.get? id = some token)
    (hmarks : list.marks = spelling.marksFrom 0) (hreads : spelling.Reads rest) :
    list.Tiles (spelling.text ++ post) spelling.text := by
  -- a mark is cut out of the source between what the tokens before and behind it spell
  have hmark : ∀ mark ∈ list.marks, ∃ span, mark.2.2 = some span
      ∧ (Text.IsBoundary (spelling.text ++ post) span.start
        ∧ Text.IsBoundary (spelling.text ++ post) span.stop)
      ∧ mark.2.1 = Text.slice (spelling.text ++ post) span.start span.stop := by
    intro mark hin
    rw [hmarks] at hin
    obtain ⟨pre, behind, span, hspan, hsplit, hstart, hstop⟩ :=
      Spelling.mem_marksFrom "" post hin
    rw [String.empty_append] at hsplit
    refine ⟨span, hspan, ⟨?_, ?_⟩, ?_⟩
    · refine String.Pos.Raw.isValid_iff_exists_append.mpr ⟨pre, mark.2.1 ++ behind, ?_, ?_⟩
      · rw [hsplit, String.append_assoc]
      · rw [hstart]
        rfl
    · refine String.Pos.Raw.isValid_iff_exists_append.mpr ⟨pre ++ mark.2.1, behind, hsplit, ?_⟩
      rw [hstop, ← String.utf8ByteSize_append]
      rfl
    · rw [hsplit, hstart, hstop]
      exact (Text.slice_append _ _ _).symm
  refine ⟨?_, ?_, ?_, ?_⟩
  · unfold spans
    rw [hmarks]
    have htile := Spelling.tile_marksFrom hreads.ne_empty 0
    rwa [Nat.zero_add] at htile
  · intro span hspan
    obtain ⟨mark, hin, hmark?⟩ := List.mem_filterMap.mp hspan
    obtain ⟨span', hspan', haligned, -⟩ := hmark mark hin
    rw [hmark?] at hspan'
    obtain rfl := Option.some.inj hspan'
    exact haligned
  · intro id hid
    obtain ⟨token, htoken⟩ := hlive id hid
    -- each token of the file has its mark
    have hin : (token.kind, token.text, token.span?) ∈ list.marks :=
      List.mem_filterMap.mpr ⟨id, hid, by rw [htoken]; rfl⟩
    obtain ⟨span, hspan, -, htext⟩ := hmark _ hin
    refine ⟨token, span, htoken, hspan, List.mem_filterMap.mpr ⟨_, hin, hspan⟩, htext, ?_⟩
    rw [hmarks] at hin
    have hentry : (token.kind, token.text) ∈ spelling := by
      rw [← Spelling.map_marksFrom 0 spelling]
      exact List.mem_map.mpr ⟨_, hin, rfl⟩
    exact hreads.ne_empty _ hentry
  · unfold TokenList.text
    rw [← text_spells, spells_eq_marks, hmarks, Spelling.map_marksFrom]

/-- **The tokens read from a source** lie side by side over all of it, or up to a lexeme that
    cannot be read. -/
theorem Lexing.run_tiles (source : String) :
    (∀ list, TokenList.lex source = .ok list → list.Tiles source source)
      ∧ ∀ error, (Lexing.run source).error? = some error →
        ∃ done ahead lexeme, source = done ++ ahead
          ∧ (Lexing.run source).tokens.Tiles source done
          ∧ (done.utf8ByteSize, lexeme) ∈ Lexeme.scan source
          ∧ TokenKind.ofLexeme source done.utf8ByteSize lexeme = .error error.fault := by
  obtain ⟨spelling, ahead, hsource, hreads, hunedited, hmarks, hend⟩ :=
    Lexing.readFrom_scan (Lexing.has_start source) (Lexing.at_start source) (Nat.le_refl _)
  rw [List.nil_append] at hmarks hend
  have htiles : (Lexing.run source).tokens.Tiles source spelling.text := by
    have hlive : ∀ id ∈ (Lexing.run source).tokens.ids,
        ∃ token, (Lexing.run source).tokens.get? id = some token := by
      intro id hid
      obtain ⟨token, htoken, -⟩ := TokenList.Threaded.get?_of_mem hunedited.wellFormed.threaded hid
      exact ⟨token, htoken⟩
    have hall := TokenList.tiles_of_marks ahead hlive hmarks hreads
    rwa [← hsource] at hall
  -- the reading stopped at the end of the source, or at a lexeme that is no token
  have hrun : ∀ {error?}, (Lexing.run source).error? = error? →
      (error? = none ∧ ahead = "") ∨ ∃ error lexeme, error? = some error
        ∧ (spelling.text.utf8ByteSize, lexeme) ∈ Lexeme.scan source
        ∧ TokenKind.ofLexeme source spelling.text.utf8ByteSize lexeme = .error error.fault := by
    rintro error? rfl
    exact hend
  refine ⟨fun list hlex => ?_, fun error herror => ?_⟩
  · unfold TokenList.lex at hlex
    dsimp only at hlex
    cases herror : (Lexing.run source).error? with
    | some error => simp [herror] at hlex
    | none =>
      rw [herror] at hlex
      obtain rfl := Except.ok.inj hlex
      rcases hrun herror with ⟨-, hahead⟩ | ⟨error, lexeme, hsome, -⟩
      · rw [hahead, String.append_empty] at hsource
        rwa [← hsource] at htiles
      · simp at hsome
  · rcases hrun herror with ⟨hnone, -⟩ | ⟨error', lexeme, hsome, hin, hbad⟩
    · simp at hnone
    · obtain rfl := Option.some.inj hsome
      exact ⟨spelling.text, ahead, lexeme, hsource, htiles, hin, hbad⟩

/-- An escape takes only the first byte of the character behind it, and still the string ends
    between characters.  Outside of strings and comments that character stops the reading. -/
theorem Lexing.run_tiles_wideCharacter :
    (∃ list, TokenList.lex "s = \"\\é\"; // é" = .ok list
      ∧ list.Tiles "s = \"\\é\"; // é" "s = \"\\é\"; // é")
      ∧ ∃ error done ahead lexeme, (Lexing.run "b é").error? = some error
        ∧ "b é" = done ++ ahead ∧ (Lexing.run "b é").tokens.Tiles "b é" done
        ∧ (done.utf8ByteSize, lexeme) ∈ Lexeme.scan "b é"
        ∧ TokenKind.ofLexeme "b é" done.utf8ByteSize lexeme = .error error.fault := by
  constructor
  · have hok : (TokenList.lex "s = \"\\é\"; // é").isOk = true := by decide +kernel
    cases hlex : TokenList.lex "s = \"\\é\"; // é" with
    | error error => simp [hlex, Except.isOk, Except.toBool] at hok
    | ok list => exact ⟨list, rfl, (run_tiles _).1 list hlex⟩
  · have hstop : (Lexing.run "b é").error?.isSome = true := by decide +kernel
    obtain ⟨error, herror⟩ := Option.isSome_iff_exists.mp hstop
    obtain ⟨done, ahead, lexeme, hrest⟩ := (run_tiles "b é").2 error herror
    exact ⟨error, done, ahead, lexeme, herror, hrest⟩

end KernelPrep
