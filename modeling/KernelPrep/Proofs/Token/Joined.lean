/-
  KernelPrep.Proofs.Token.Joined — two sources, one behind the other.

  Where a lexeme ends is decided by the bytes directly behind it.  A line end is decided by its
  own bytes, so nothing before one depends on what is put behind it: where a source ends with a
  line end, what follows is read as if it stood alone, only further on in the file.

  Main definitions:
    * `Token.Record.shift` — the same token further on in the file.

  Main statements:
    * `Spelling.Reads.extend` — what ends with a line end is read before everything;
    * `Lexing.run_halts`      — what reading makes of a spelling and of what stops it;
    * `TokenList.lex_append`  — what two sources say that are joined at a line end.
-/
import KernelPrep.Proofs.Token.Sorts

namespace KernelPrep

/-! ## §1. Further on in the file -/

/-- The token further on in a file, by a number of bytes and a number of lines.  Lines are not
    counted beyond the largest one. -/
def Token.Record.shift (bytes lines : Nat) (record : Token.Record) : Token.Record :=
  { record with
    line := min (record.line + lines) maxLine
    span? := record.span?.map fun span => ⟨bytes + span.start, bytes + span.stop⟩ }

namespace Spelling

/-- The records of a joined spelling, the second part read from where the first one ends. -/
theorem recordsFrom_append (start line : Nat) (a b : Spelling) :
    Spelling.recordsFrom start line (a ++ b) = a.recordsFrom start line
      ++ b.recordsFrom (start + a.text.utf8ByteSize) (a.lineFrom line) := by
  induction a generalizing start line with
  | nil => rfl
  | cons entry a ih =>
    obtain ⟨kind, text⟩ := entry
    rw [List.cons_append, recordsFrom, recordsFrom, List.cons_append, ih, text_cons,
      String.utf8ByteSize_append, Nat.add_assoc]
    rfl

theorem lineFrom_append (line : Nat) (a b : Spelling) :
    Spelling.lineFrom line (a ++ b) = b.lineFrom (a.lineFrom line) := by
  induction a generalizing line with
  | nil => rfl
  | cons entry a ih => exact ih _

/-- Lines that were left out of the count stay out of it further on. -/
theorem line_shift (line lines feeds : Nat) :
    min (min (line + lines) maxLine + feeds) maxLine
      = min (min (line + feeds) maxLine + lines) maxLine := by
  omega

/-- **Tokens read further on** are the same tokens further on. -/
theorem recordsFrom_shift (bytes lines start line : Nat) (spelling : Spelling) :
    spelling.recordsFrom (bytes + start) (min (line + lines) maxLine)
      = (spelling.recordsFrom start line).map (·.shift bytes lines) := by
  induction spelling generalizing start line with
  | nil => rfl
  | cons entry rest ih =>
    obtain ⟨kind, text⟩ := entry
    rw [recordsFrom, recordsFrom, List.map_cons, line_shift, Nat.add_assoc, ih]
    rfl

/-- Reading from some lines on ends as many lines later, up to the largest number. -/
theorem lineFrom_shift (lines line : Nat) (spelling : Spelling) :
    spelling.lineFrom (min (line + lines) maxLine)
      = min (spelling.lineFrom line + lines) maxLine := by
  induction spelling generalizing line with
  | nil => rfl
  | cons entry rest ih =>
    obtain ⟨kind, text⟩ := entry
    rw [lineFrom, lineFrom, line_shift, ih]

/-- The line behind a spelling is that behind its text. -/
theorem lineFrom_eq (spelling : Spelling) :
    spelling.lineFrom 1 = min (1 + Text.lineFeeds spelling.text) maxLine := by
  have hgeneral : ∀ line, line ≤ maxLine →
      spelling.lineFrom line = min (line + Text.lineFeeds spelling.text) maxLine := by
    induction spelling with
    | nil =>
      intro line hline
      exact (Nat.min_eq_left hline).symm
    | cons entry rest ih =>
      obtain ⟨kind, text⟩ := entry
      intro line _
      rw [lineFrom, ih _ (Nat.min_le_right _ _), text_cons, Text.lineFeeds_append]
      omega
  exact hgeneral 1 (by decide)

/-! ## §2. What ends with a line end -/

/-- **A spelling that ends with a line end** is read before everything that may follow.  What
    stands before the line end looks at the text behind it, but not beyond. -/
theorem Reads.extend {init : Spelling} {eol : String}
    (h : Spelling.Reads (init ++ [(.eol, eol)]) []) (rest : List UInt8) :
    Spelling.Reads (init ++ [(.eol, eol)]) rest
      ∧ Lexeme.Alike (Text.bytes (Spelling.text (init ++ [(.eol, eol)])))
        (Text.bytes (Spelling.text (init ++ [(.eol, eol)])) ++ rest) := by
  induction init with
  | nil =>
    -- a line end is a lexeme of its own, whatever is behind it
    obtain ⟨⟨tag, hformed, -, htag⟩, -⟩ := h
    obtain rfl := TokenKind.tag_of_eol htag
    have htext : Text.bytes (Spelling.text [(.eol, eol)]) = Text.bytes eol ++ [] := by
      rw [text_cons, Text.bytes_append]
      rfl
    refine ⟨⟨⟨.newline, hformed, trivial, htag⟩, trivial⟩, ?_⟩
    rw [List.nil_append, htext, List.append_assoc]
    exact .lexeme hformed trivial
  | cons entry init ih =>
    obtain ⟨kind, text⟩ := entry
    obtain ⟨hhead, htail⟩ := h
    obtain ⟨hreads, halike⟩ := ih htail
    rw [List.append_nil] at hhead
    refine ⟨⟨hhead.alike halike, hreads⟩, ?_⟩
    obtain ⟨tag, hformed, hstops, -⟩ := hhead
    rw [List.cons_append, text_cons, Text.bytes_append, List.append_assoc]
    exact .lexeme hformed hstops

end Spelling

/-! ## §3. What reading makes of a source -/

namespace Lexing

/-- **A spelling and what stops the reading** behind it: the tokens are those of the spelling,
    and the line of a fault is the one behind it. -/
theorem run_halts {spelling : Spelling} {post : String} {fault? : Option LexFault}
    (hreads : spelling.Reads (Text.bytes post)) (hhalts : Halts post fault?) :
    (run (spelling.text ++ post)).tokens.records = spelling.recordsFrom 0 1
      ∧ (run (spelling.text ++ post)).error?
        = fault?.map fun fault => ⟨spelling.lineFrom 1, fault⟩ := by
  obtain ⟨next, fuel, c, hnext, hat, hfuel, hline, hrecords, -, hread⟩ :=
    readFrom_pass (has_start (spelling.text ++ post)) (at_start (spelling.text ++ post)) hreads
      (Nat.le_refl _)
  have hrun : run (spelling.text ++ post)
      = { next with error? := fault?.map fun fault => ⟨next.line, fault⟩ } :=
    hread.trans (hnext.readFrom_halts hat hfuel hhalts)
  rw [hrun, ← hline]
  exact ⟨hrecords, rfl⟩

end Lexing

/-! ## §4. Joining -/

namespace TokenList

/-- What a source says, by the spelling that was cut off it and what stopped the reading. -/
theorem lex_halts {spelling : Spelling} {post : String} {fault? : Option LexFault}
    (hreads : spelling.Reads (Text.bytes post)) (hhalts : Lexing.Halts post fault?) :
    match fault? with
    | none => ∃ list, lex (spelling.text ++ post) = .ok list
        ∧ list.records = spelling.recordsFrom 0 1
    | some fault => lex (spelling.text ++ post) = .error ⟨spelling.lineFrom 1, fault⟩ := by
  obtain ⟨hrecords, herror⟩ := Lexing.run_halts hreads hhalts
  unfold lex
  dsimp only
  rw [herror]
  cases fault? with
  | none => exact ⟨_, rfl, hrecords⟩
  | some fault => rfl

/-- The tokens of a file that is empty or ends with a line end, by kind and text. -/
theorem spells_of_last {list : TokenList}
    (hend : ∀ id ∈ list.ids.getLast?, list.kind? id = some .eol) :
    list.spells list.ids = []
      ∨ ∃ init eol, list.spells list.ids = init ++ [(.eol, eol)] := by
  rcases List.eq_nil_or_concat list.ids with hnil | ⟨before, last, hids⟩
  · rw [hnil]
    exact Or.inl rfl
  · rw [List.concat_eq_append] at hids
    have hkind : list.kind? last = some .eol := hend last (by simp [hids])
    obtain ⟨token, htoken, heol⟩ := Option.map_eq_some_iff.mp hkind
    refine Or.inr ⟨list.spells before, token.text, ?_⟩
    rw [hids, spells_append, spells_cons htoken, heol]
    rfl

/-- A source that is empty or ends with a line end is cut in the same way whatever follows. -/
theorem lex_reads_all {source : String} {list : TokenList} (h : lex source = .ok list)
    (hend : ∀ id ∈ list.ids.getLast?, list.kind? id = some .eol) (rest : List UInt8) :
    (list.spells list.ids).Reads rest := by
  have hreads := (lex_reads h).1
  rcases spells_of_last hend with hnil | ⟨init, eol, hspells⟩
  · rw [hnil]
    trivial
  · rw [hspells] at hreads ⊢
    exact (hreads.extend rest).1

/-- The tokens of a source that is read are those of its spelling. -/
theorem lex_records {source : String} {list : TokenList} (h : lex source = .ok list) :
    list.records = (list.spells list.ids).recordsFrom 0 1 := by
  obtain ⟨hreads, htext⟩ := lex_reads h
  obtain ⟨list', hlex, hrecords⟩ := lex_halts hreads (show Lexing.Halts "" none from rfl)
  rw [htext, String.append_empty, h] at hlex
  obtain rfl := Except.ok.inj hlex
  exact hrecords

/-- **Reading goes on behind a line end** as at the start of a file.  Behind a source that is
    empty or ends with a line end another one is read if it is read alone.  Its tokens then
    follow those of the first, further on by the length of the first and its lines; else it is
    the fault that is as many lines further on. -/
theorem lex_append {a : String} {first : TokenList} (hfirst : lex a = .ok first)
    (hend : ∀ id ∈ first.ids.getLast?, first.kind? id = some .eol) (b : String) :
    ((∃ list, lex (a ++ b) = .ok list) ↔ ∃ second, lex b = .ok second)
      ∧ (∀ second list, lex b = .ok second → lex (a ++ b) = .ok list →
        list.records = first.records
          ++ second.records.map (·.shift a.utf8ByteSize (Text.lineFeeds a)))
      ∧ ∀ error, lex b = .error error → lex (a ++ b)
        = .error ⟨min (error.line + Text.lineFeeds a) maxLine, error.fault⟩ := by
  obtain ⟨spelling, post, fault?, rfl, hreads, hhalts⟩ := Lexing.exists_halts b
  have htext : (first.spells first.ids).text = a := (lex_reads hfirst).2
  -- the spelling of the first source does not depend on the second one
  have hboth : (first.spells first.ids ++ spelling).Reads (Text.bytes post) :=
    Spelling.reads_append.mpr ⟨lex_reads_all hfirst hend _, hreads⟩
  have hline : (first.spells first.ids).lineFrom 1 = min (1 + Text.lineFeeds a) maxLine := by
    rw [Spelling.lineFrom_eq, htext]
  have halone := lex_halts hreads hhalts
  have hjoined := lex_halts hboth hhalts
  rw [Spelling.text_append, htext, String.append_assoc] at hjoined
  cases fault? with
  | none =>
    obtain ⟨second, hsecond, hrecords⟩ := halone
    obtain ⟨list, hlist, hall⟩ := hjoined
    rw [hsecond, hlist]
    refine ⟨⟨fun _ => ⟨second, rfl⟩, fun _ => ⟨list, rfl⟩⟩, ?_, fun error h => by simp at h⟩
    intro second' list' hsecond' hlist'
    obtain rfl := Except.ok.inj hsecond'
    obtain rfl := Except.ok.inj hlist'
    rw [hall, Spelling.recordsFrom_append, lex_records hfirst, hrecords, hline, htext,
      Nat.zero_add, ← Spelling.recordsFrom_shift, Nat.add_zero]
  | some fault =>
    rw [halone, hjoined]
    refine ⟨by simp, fun second list h => by simp at h, fun error h => ?_⟩
    obtain rfl := Except.error.inj h
    rw [Spelling.lineFrom_append, hline, Spelling.lineFrom_shift]

/-- Behind a line end of two bytes: a statement, and a fault on its second line. -/
theorem lex_append_statement :
    ∃ first, lex "// a\r\n" = .ok first
      ∧ (∀ id ∈ first.ids.getLast?, first.kind? id = some .eol)
      ∧ (∃ second list, lex "b;" = .ok second ∧ lex ("// a\r\n" ++ "b;") = .ok list
        ∧ list.records = first.records
          ++ [⟨.symbol, "b", 2, some ⟨6, 7⟩⟩, ⟨.semicolon, ";", 2, some ⟨7, 8⟩⟩])
      ∧ lex ("// a\r\n" ++ "b\n'") = .error ⟨3, .unterminatedString⟩ := by
  -- the two texts are lexed by evaluation, and the joined one by the theorem
  have heval : (lex "// a\r\n").toOption.map (fun list => list.ids.getLast?.bind list.kind?)
        = some (some .eol)
      ∧ (lex "b;").toOption.map (·.records)
        = some [⟨.symbol, "b", 1, some ⟨0, 1⟩⟩, ⟨.semicolon, ";", 1, some ⟨1, 2⟩⟩]
      ∧ (Lexing.run "b\n'").error? = some ⟨2, .unterminatedString⟩ := by decide +kernel
  obtain ⟨hfirst, hsecond, hfault⟩ := heval
  cases hlex : lex "// a\r\n" with
  | error error => simp [hlex, Except.toOption] at hfirst
  | ok first =>
    have hend : ∀ id ∈ first.ids.getLast?, first.kind? id = some .eol := by
      intro id hid
      rw [hlex] at hfirst
      simpa [Except.toOption, Option.mem_def.mp hid] using hfirst
    refine ⟨first, rfl, hend, ?_, ?_⟩
    · obtain ⟨hiff, htokens, -⟩ := lex_append hlex hend "b;"
      cases hb : lex "b;" with
      | error error => simp [hb, Except.toOption] at hsecond
      | ok second =>
        obtain ⟨list, hlist⟩ := hiff.mpr ⟨second, hb⟩
        refine ⟨second, list, rfl, hlist, ?_⟩
        rw [hb] at hsecond
        have hrecords : second.records
            = [⟨.symbol, "b", 1, some ⟨0, 1⟩⟩, ⟨.semicolon, ";", 1, some ⟨1, 2⟩⟩] :=
          Option.some.inj hsecond
        rw [htokens second list hb hlist, hrecords]
        rfl
    · have hb : lex "b\n'" = .error ⟨2, .unterminatedString⟩ := by
        unfold lex
        dsimp only
        rw [hfault]
      exact (lex_append hlex hend "b\n'").2.2 _ hb

end TokenList

end KernelPrep
