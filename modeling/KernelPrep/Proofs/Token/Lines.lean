/-
  KernelPrep.Proofs.Token.Lines — the lines of the tokens of a file.

  Reading counts line feeds as it goes, so that no token is on a line before that of a token
  read earlier.  The count stops at a largest line, behind which all tokens are on that line.
  Up to there it agrees with the source, where the line of a byte is told by the line feeds
  before it.

  Main definitions:
    * `Lexing.Rising` — the lines of the tokens read so far rise up to the current one;
    * `Text.lineAt`   — the line of a byte of a text.

  Main statements:
    * `Lexing.readFrom_rising`   — reading keeps the lines rising;
    * `TokenList.lex_lineOf_le`  — a token is not on a line behind that of a later one;
    * `Lexing.run_lines`         — tokens and errors are on the lines of their first bytes.
-/
import KernelPrep.Proofs.Outline.Leaves
import KernelPrep.Proofs.Token.Joined
import KernelPrep.Proofs.Token.Splicing

namespace KernelPrep

namespace TokenList

/-- The line of one more token read, and those of the others. -/
theorem lineOf_append (list : TokenList) (kind : TokenKind) (span : Span) (line : Nat)
    {id : TokenId} (hid : id.index ≤ list.slots.size) :
    (list.append kind span line).2.lineOf id
      = if id.index < list.slots.size then list.lineOf id else line := by
  have hget : ((list.append kind span line).2.get? id).map (·.line)
      = if id = list.nextId then some line else (list.get? id).map (·.line) := by
    show (((list.alloc _).link list.tail? (some list.nextId)).get? id).map _ = _
    rw [get?_link, get?_alloc, Option.map_map]
    split
    · rfl
    · rfl
  unfold lineOf
  rw [hget]
  by_cases hlt : id.index < list.slots.size
  · rw [if_pos hlt, if_neg]
    rintro rfl
    exact absurd hlt (Nat.lt_irrefl _)
  · have hnext : id = list.nextId := TokenId.ext_index (Nat.le_antisymm hid (Nat.le_of_not_lt hlt))
    rw [if_neg hlt, if_pos hnext]
    rfl

end TokenList

/-! ## §1. Rising lines -/

namespace Lexing

/-- The lines of the tokens read rise, and none is behind the line reached. -/
structure Rising (state : Lexing) : Prop where
  unedited : state.tokens.Unedited
  rising : ∀ a b : TokenId, a.index ≤ b.index → b.index < state.tokens.slots.size →
    state.tokens.lineOf a ≤ state.tokens.lineOf b
  reached : ∀ a : TokenId, a.index < state.tokens.slots.size →
    state.tokens.lineOf a ≤ state.line
  bounded : state.line ≤ maxLine

/-- Before the reading no line is passed. -/
theorem rising_start (source : String) : Rising { tokens := TokenList.empty source } where
  unedited := TokenList.unedited_empty source
  rising := by
    intro a b _ hb
    simp [TokenList.empty] at hb
  reached := by
    intro a ha
    simp [TokenList.empty] at ha
  bounded := by
    show 1 ≤ maxLine
    decide

/-- **One more token** is on the line reached, and the next one on that line or behind it. -/
theorem Rising.append {state : Lexing} (h : state.Rising) (kind : TokenKind) (span : Span)
    (feeds : Nat) :
    Rising { tokens := (state.tokens.append kind span state.line).2
             line := min (state.line + feeds) maxLine } := by
  have hsize : (state.tokens.append kind span state.line).2.slots.size
      = state.tokens.slots.size + 1 := by
    rw [(TokenList.append_spliced h.unedited.threaded h.unedited.loose kind span state.line).size]
    exact TokenList.size_alloc _ _
  have hline := fun {id : TokenId} (hid : id.index ≤ state.tokens.slots.size) =>
    state.tokens.lineOf_append kind span state.line hid
  have hnext : state.line ≤ min (state.line + feeds) maxLine :=
    Nat.le_min.mpr ⟨Nat.le_add_right _ _, h.bounded⟩
  refine ⟨h.unedited.append _ _ _, ?_, ?_, Nat.min_le_right _ _⟩
  · intro a b hab hb
    dsimp only at hb ⊢
    rw [hsize] at hb
    rw [hline (by omega), hline (by omega)]
    -- two older tokens are as before; the new one has the line the state had reached
    by_cases hold : b.index < state.tokens.slots.size
    · rw [if_pos hold, if_pos (Nat.lt_of_le_of_lt hab hold)]
      exact h.rising a b hab hold
    · rw [if_neg hold]
      split
      · rename_i ha
        exact h.reached a ha
      · exact Nat.le_refl _
  · intro a ha
    dsimp only at ha ⊢
    rw [hsize] at ha
    rw [hline (by omega)]
    split
    · rename_i hold
      exact Nat.le_trans (h.reached a hold) hnext
    · exact hnext

/-- **Reading** keeps the lines rising. -/
theorem readFrom_rising (lexemes : List (Nat × Lexeme)) {state : Lexing} (h : state.Rising) :
    (state.readFrom lexemes).Rising := by
  induction lexemes generalizing state with
  | nil => exact h
  | cons entry rest ih =>
    obtain ⟨start, lexeme⟩ := entry
    unfold readFrom
    dsimp only
    split
    · exact ⟨h.unedited, h.rising, h.reached, h.bounded⟩
    · exact ih (h.append _ _ _)

/-- The lines of a source that was read rise. -/
theorem run_rising (source : String) : (run source).Rising :=
  readFrom_rising (Lexeme.scan source) (rising_start source)

end Lexing

/-- **The lines of a file** do not fall from one token to a later one. -/
theorem TokenList.lex_lineOf_le {source : String} {list : TokenList}
    (h : TokenList.lex source = .ok list) {a b : TokenId} (hab : a.index ≤ b.index)
    (hb : b ∈ list.ids) : list.lineOf a ≤ list.lineOf b := by
  have hfresh := TokenList.lex_unedited h
  unfold TokenList.lex at h
  dsimp only at h
  split at h
  · simp at h
  · obtain rfl := Except.ok.inj h
    exact (Lexing.run_rising source).rising a b hab (hfresh.mem_ids_iff.mp hb)

/-! ## §2. The line of a byte -/

namespace Text

/-- The line of the byte at the offset: one more than the line feeds before it. -/
def lineAt (text : String) (offset : Nat) : Nat :=
  ((bytes text).take offset).count Lexeme.lf + 1

/-- Characters are told apart by their bytes. -/
theorem encode_inj {a b : Char} (h : String.utf8EncodeChar a = String.utf8EncodeChar b) :
    a = b := by
  have htext : String.ofList [a] = String.ofList [b] := by
    refine bytes_inj.mp ?_
    rw [bytes_eq, bytes_eq, String.toList_ofList, String.toList_ofList, List.flatMap_singleton,
      List.flatMap_singleton, h]
  have hlist := congrArg String.toList htext
  rw [String.toList_ofList, String.toList_ofList] at hlist
  exact List.head_eq_of_cons_eq hlist

/-- The byte of a line feed is in the encoding of no other character. -/
theorem count_encode (c : Char) :
    (String.utf8EncodeChar c).count Lexeme.lf = if c = '\n' then 1 else 0 := by
  split
  · rename_i hfeed
    rw [hfeed]
    decide
  · rename_i hother
    rw [List.count_eq_zero]
    intro hmem
    rcases encode_ascii c with ⟨b, hone⟩ | hnone
    · rw [hone, List.mem_singleton] at hmem
      rw [← hmem] at hone
      exact hother (encode_inj hone)
    · exact absurd (hnone _ hmem) (by decide)

/-- Line feeds are counted in bytes as in characters. -/
theorem count_bytes (text : String) : (bytes text).count Lexeme.lf = lineFeeds text := by
  rw [bytes_eq]
  unfold lineFeeds
  induction text.toList with
  | nil => rfl
  | cons c rest ih =>
    rw [List.flatMap_cons, List.count_append, ih, count_encode, List.count_cons, Nat.add_comm]
    simp only [beq_iff_eq]

/-- The line behind a text. -/
theorem lineAt_append (a b : String) : lineAt (a ++ b) a.utf8ByteSize = 1 + lineFeeds a := by
  unfold lineAt
  rw [bytes_append, ← length_bytes, List.take_left, count_bytes, Nat.add_comm]

end Text

namespace Spelling

/-- Each token of a spelling is behind the text of those before it. -/
theorem exists_of_mem_recordsFrom {spelling : Spelling} {start line : Nat}
    {record : Token.Record} (h : record ∈ spelling.recordsFrom start line) :
    ∃ (before : Spelling) (kind : TokenKind) (text : String) (after : Spelling),
      spelling = before ++ (kind, text) :: after ∧ record = ⟨kind, text, before.lineFrom line,
        some ⟨start + before.text.utf8ByteSize,
          start + before.text.utf8ByteSize + text.utf8ByteSize⟩⟩ := by
  induction spelling generalizing start line with
  | nil => simp [recordsFrom] at h
  | cons entry rest ih =>
    obtain ⟨kind, text⟩ := entry
    rw [recordsFrom] at h
    rcases List.mem_cons.mp h with rfl | h
    · exact ⟨[], kind, text, rest, rfl, rfl⟩
    · obtain ⟨before, kind', text', after, rfl, rfl⟩ := ih h
      refine ⟨(kind, text) :: before, kind', text', after, rfl, ?_⟩
      rw [lineFrom, text_cons, String.utf8ByteSize_append, Nat.add_assoc]

/-- Without places and lines the records are the tokens. -/
theorem map_recordsFrom (start line : Nat) (spelling : Spelling) :
    (spelling.recordsFrom start line).map (fun record => (record.kind, record.text))
      = spelling := by
  induction spelling generalizing start line with
  | nil => rfl
  | cons entry rest ih =>
    obtain ⟨kind, text⟩ := entry
    rw [recordsFrom, List.map_cons, ih]

/-- **The line behind a spelling** is that of the byte there, unless the count has stopped. -/
theorem lineFrom_eq_lineAt {spelling : Spelling} {post : String}
    (h : Text.lineFeeds (spelling.text ++ post) < maxLine) :
    spelling.lineFrom 1 = Text.lineAt (spelling.text ++ post) spelling.text.utf8ByteSize := by
  rw [Text.lineFeeds_append] at h
  rw [lineFrom_eq, Text.lineAt_append]
  omega

end Spelling

/-- A file spells what its records do. -/
theorem TokenList.text_of_records {list : TokenList} {spelling : Spelling} {start line : Nat}
    (h : list.records = spelling.recordsFrom start line) : list.text = spelling.text := by
  unfold TokenList.text
  rw [← text_spells, spells_eq_marks, marks_eq_records, h, List.map_map]
  exact congrArg Spelling.text (Spelling.map_recordsFrom start line spelling)

/-! ## §3. The lines of a source -/

namespace Lexing

/-- The lexeme behind a spelling that is cut as it says is one of the source's. -/
theorem mem_scan {spelling : Spelling} {post : String} {lexeme : Lexeme}
    (hreads : spelling.Reads (Text.bytes post))
    (hmunch : Lexeme.munch (Text.bytes post) = some lexeme) :
    (spelling.text.utf8ByteSize, lexeme) ∈ Lexeme.scan (spelling.text ++ post) := by
  obtain ⟨next, fuel, c, -, hat, hfuel, -, -, hscan, -⟩ :=
    readFrom_pass (has_start (spelling.text ++ post)) (at_start (spelling.text ++ post)) hreads
      (Nat.le_refl _)
  obtain ⟨more, hmore⟩ := hat.scanFrom_cons hfuel hmunch
  exact hscan (hmore ▸ List.mem_cons_self)

/-- The tokens of a spelling are on the lines of their first bytes. -/
theorem line_of_records {list : TokenList} {spelling : Spelling} {post : String}
    (hrecords : list.records = spelling.recordsFrom 0 1)
    (hfeeds : Text.lineFeeds (spelling.text ++ post) < maxLine) {id : TokenId} {token : Token}
    (hid : id ∈ list.ids) (htoken : list.get? id = some token) :
    ∃ span, token.span? = some span
      ∧ token.text = Text.slice (spelling.text ++ post) span.start span.stop
      ∧ token.line = Text.lineAt (spelling.text ++ post) span.start := by
  have hrecord : ⟨token.kind, token.text, token.line, token.span?⟩ ∈ list.records :=
    List.mem_filterMap.mpr ⟨id, hid, by rw [htoken]; rfl⟩
  rw [hrecords] at hrecord
  obtain ⟨before, kind, text, after, rfl, heq⟩ := Spelling.exists_of_mem_recordsFrom hrecord
  obtain ⟨-, htext, hline, hspan⟩ := Token.Record.mk.inj heq
  rw [Nat.zero_add] at hspan
  have hsplit : Spelling.text (before ++ (kind, text) :: after) ++ post
      = before.text ++ (text ++ (Spelling.text after ++ post)) := by
    rw [Spelling.text_append, Spelling.text_cons, String.append_assoc, String.append_assoc]
  rw [hsplit] at hfeeds ⊢
  refine ⟨_, hspan, ?_, ?_⟩
  · rw [htext, ← String.append_assoc]
    exact (Text.slice_append _ _ _).symm
  · rw [hline]
    exact Spelling.lineFrom_eq_lineAt hfeeds

/-- The tokens read are in the order of their lines. -/
theorem run_lines_rise (source : String) :
    ((run source).tokens.ids.map (run source).tokens.lineOf).Pairwise (· ≤ ·) := by
  have hrising := run_rising source
  rw [List.pairwise_map]
  refine hrising.unedited.pairwise_index.imp_of_mem fun _ hb hab => ?_
  exact hrising.rising _ _ (Nat.le_of_lt hab) (hrising.unedited.mem_ids_iff.mp hb)

/-- **The lines of a source**, when it has not more of them than are counted.  A token that was
    read is on the line of its first byte.  An error is on that of the first byte that was not
    read, where the offending lexeme starts; without one all of the source was read.  And the
    lines do not fall along the tokens. -/
theorem run_lines {source : String} (h : Text.lineFeeds source < maxLine) :
    (∀ id ∈ (run source).tokens.ids, ∃ token span, (run source).tokens.get? id = some token
        ∧ token.span? = some span
        ∧ token.text = Text.slice source span.start span.stop
        ∧ token.line = Text.lineAt source span.start)
      ∧ (∀ error, (run source).error? = some error → ∃ ahead start lexeme,
        source = (run source).tokens.text ++ ahead
          ∧ start = (run source).tokens.text.utf8ByteSize
          ∧ (start, lexeme) ∈ Lexeme.scan source
          ∧ TokenKind.ofLexeme source start lexeme = .error error.fault
          ∧ error.line = Text.lineAt source start)
      ∧ ((run source).error? = none → (run source).tokens.text = source)
      ∧ ((run source).tokens.ids.map (run source).tokens.lineOf).Pairwise (· ≤ ·) := by
  have hunedited := (run_rising source).unedited
  have hrise := run_lines_rise source
  -- what was read is a spelling, and `post` is where the reading stopped
  obtain ⟨spelling, post, fault?, rfl, hreads, hhalts⟩ := exists_halts source
  obtain ⟨hrecords, herror?⟩ := run_halts hreads hhalts
  refine ⟨fun id hid => ?_, fun error herror => ?_, fun hnone => ?_, hrise⟩
  · obtain ⟨token, htoken, -⟩ := hunedited.threaded.get?_of_mem (hunedited.ids_eq ▸ hid)
    obtain ⟨span, hspan, htext, hline⟩ := line_of_records hrecords h hid htoken
    exact ⟨token, span, htoken, hspan, htext, hline⟩
  · rw [herror?] at herror
    obtain ⟨fault, rfl, rfl⟩ := Option.map_eq_some_iff.mp herror
    obtain ⟨lexeme, hmunch, hfault⟩ := hhalts
    rw [TokenList.text_of_records hrecords]
    refine ⟨post, _, lexeme, rfl, rfl, mem_scan hreads hmunch, ?_, ?_⟩
    · have hkind := TokenKind.ofLexeme_shift spelling.text post 0 lexeme
      rwa [hfault, Nat.add_zero] at hkind
    · exact Spelling.lineFrom_eq_lineAt h
  · rw [herror?, Option.map_eq_none_iff] at hnone
    obtain rfl := hnone
    obtain rfl : post = "" := hhalts
    rw [TokenList.text_of_records hrecords, String.append_empty]

/-- A comment and a string that go over two lines, both line ends, and a string with no end. -/
def manyLines : String := "/* a\n b */ s = \"c\\\nd\";\r\nt 'u"

/-- Eleven tokens on four lines, and an error on the last of them. -/
theorem run_lines_manyLines :
    Text.lineFeeds manyLines < maxLine
      ∧ (run manyLines).tokens.ids.map (run manyLines).tokens.lineOf
        = [1, 2, 2, 2, 2, 2, 2, 3, 3, 4, 4]
      ∧ (∀ id ∈ (run manyLines).tokens.ids, ∃ token span,
        (run manyLines).tokens.get? id = some token ∧ token.span? = some span
          ∧ token.line = Text.lineAt manyLines span.start)
      ∧ ∃ error start, (run manyLines).error? = some error
        ∧ start = (run manyLines).tokens.text.utf8ByteSize
        ∧ error.line = Text.lineAt manyLines start := by
  have heval : (run manyLines).tokens.ids.map (run manyLines).tokens.lineOf
        = [1, 2, 2, 2, 2, 2, 2, 3, 3, 4, 4]
      ∧ (run manyLines).error? = some ⟨4, .unterminatedString⟩ := by decide +kernel
  obtain ⟨hlines, herror⟩ := heval
  have hfeeds : Text.lineFeeds manyLines < maxLine := by decide +kernel
  obtain ⟨htokens, herrors, -, -⟩ := run_lines hfeeds
  refine ⟨hfeeds, hlines, fun id hid => ?_, ?_⟩
  · obtain ⟨token, span, htoken, hspan, -, hline⟩ := htokens id hid
    exact ⟨token, span, htoken, hspan, hline⟩
  · obtain ⟨-, start, -, -, hstart, -, -, hline⟩ := herrors _ herror
    exact ⟨_, start, herror, hstart, hline⟩

end Lexing

end KernelPrep
