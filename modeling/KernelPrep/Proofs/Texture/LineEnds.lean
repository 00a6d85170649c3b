/-
  KernelPrep.Proofs.Texture.LineEnds — the line ends of a prepared file.

  New lines end as the first line-end token of the file does.  In a file whose lines end with
  two bytes that token has both of them, unless a line comment stands right before it: the
  comment goes up to the line feed and takes the carriage return along.  A file without such a
  token has its line feeds in comments and strings, and then new lines end with a line feed
  alone.

  Main definitions:
    * `Text.IsCrlf`                 — every line feed follows a carriage return;
    * `TokenList.isLineComment`     — comments that end with their line;
    * `TokenList.opensWithLineEnd`  — a file whose first line end is no part of a comment.

  Main statements:
    * `TokenList.newline_crlf_iff`  — when the line ending of such a file has two bytes;
    * `Weave.Done.isCrlf_iff`       — when a prepared file keeps to lines of two bytes;
    * `process_lineEnds`            — the same for the text of a source after all passes.
-/
import KernelPrep.Proofs.Texture.Kept
import KernelPrep.Proofs.Texture.Prepared
import KernelPrep.Proofs.Texture.Relexed

namespace KernelPrep

open Lexeme (isIdentPart isIdentStart)

/-! ## §1. Line feeds behind carriage returns -/

namespace Lexeme

variable {text rest : List UInt8} {tag : Tag} {b before other : UInt8}

/-- Every line feed of the bytes follows a carriage return, where `before` is the byte before
    the first of them. -/
def crlfFrom (before : UInt8) : List UInt8 → Bool
  | [] => true
  | b :: rest => (b != lf || before == cr) && crlfFrom b rest

/-- Bytes behind bytes. -/
theorem crlfFrom_append (before : UInt8) (a b : List UInt8) :
    crlfFrom before (a ++ b) = (crlfFrom before a && crlfFrom (a.getLastD before) b) := by
  induction a generalizing before with
  | nil => rfl
  | cons x a ih =>
    rw [List.cons_append, crlfFrom, crlfFrom, ih, Bool.and_assoc, List.getLastD_cons]

/-- Bytes that do not begin with a line feed need nothing before them. -/
theorem crlfFrom_congr (h : crlfFrom before text = true) (hhead : text.head? ≠ some lf) :
    crlfFrom other text = true := by
  cases text with
  | nil => rfl
  | cons b rest =>
    have hb : b ≠ lf := fun he => hhead (congrArg some he)
    simp only [crlfFrom, Bool.and_eq_true] at h ⊢
    exact ⟨by simp [hb], h.2⟩

/-- Where there is no line feed there is nothing to ask for. -/
theorem crlfFrom_of_notMem (h : lf ∉ text) : crlfFrom before text = true := by
  induction text generalizing before with
  | nil => rfl
  | cons b rest ih =>
    obtain ⟨hb, hrest⟩ := not_or.mp (List.mem_cons.not.mp h)
    simp only [crlfFrom, Bool.and_eq_true]
    exact ⟨by simp [Ne.symm hb], ih hrest⟩

/-- **Pieces side by side**: it is enough to look at each with what stands before it. -/
theorem crlfFrom_flatMap {α : Type} {f : α → List UInt8} {items : List α}
    (h : ∀ a item b, items = a ++ item :: b →
      crlfFrom ((a.flatMap f).getLastD 0) (f item) = true) :
    crlfFrom 0 (items.flatMap f) = true := by
  induction items using List.reverseRecOn with
  | nil => rfl
  | append_singleton items item ih =>
    rw [List.flatMap_append, crlfFrom_append, Bool.and_eq_true]
    refine ⟨ih fun a other b hsplit => h a other (b ++ [item]) (by simp [hsplit]), ?_⟩
    simpa using h items item [] rfl

/-- Names, numbers and operators lie within a line, and so do blanks but for returns. -/
theorem Formed.within_line (h : Formed tag text)
    (htag : tag ∉ [.whitespace, .newline, .lineComment, .blockComment, .string]) :
    ∀ b ∈ text, b ≠ lf ∧ b ≠ cr := by
  have hpart : ∀ {b : UInt8}, isIdentPart b = true → b ≠ lf ∧ b ≠ cr := fun hb =>
    ⟨(isIdentPart_plain hb).2.2.2, (isIdentPart_plain hb).2.2.1⟩
  have hsingle : ∀ b ∈ singles, b ≠ lf ∧ b ≠ cr := List.all_iff_forall_prop.mp (by decide)
  have hpair : ∀ p ∈ pairs, p.1 ≠ lf ∧ p.1 ≠ cr ∧ p.2 ≠ lf ∧ p.2 ≠ cr :=
    List.all_iff_forall_prop.mp (by decide)
  -- of the other tags each byte is in a class that no line end is in
  cases h with
  | ident hb hbody =>
    exact List.forall_mem_cons.mpr ⟨hpart (isIdentPart_of_start hb), fun c hc => hpart (hbody c hc)⟩
  | number hfirst hbody =>
    refine List.forall_mem_cons.mpr ⟨?_, forall_of_numberLength (fun _ b hgo => ?_) hbody⟩
    · rcases hfirst with hdigit | ⟨rfl, -⟩
      · exact hpart (isIdentPart_of_digit hdigit)
      · decide
    · rcases goesOn_cases hgo with hb | rfl | rfl | rfl
      · exact hpart hb
      · decide
      · decide
      · decide
  | single hb => simpa using hsingle _ hb
  | @pair b c hb =>
    obtain ⟨hfirst, hfirst', hsecond⟩ := hpair _ hb
    simpa using ⟨⟨hfirst, hfirst'⟩, hsecond⟩
  | _ => simp at htag

/-- **Only blanks and line comments** end with a carriage return. -/
theorem Formed.tag_of_last_cr (h : Formed tag text) (hlast : text.getLast? = some cr) :
    tag = .whitespace ∨ tag = .lineComment := by
  by_contra hother
  obtain ⟨hblank, hcomment⟩ := not_or.mp hother
  by_cases htag : tag ∈ [.newline, .blockComment, .string]
  · cases h with
    | lineFeed | carriageReturn => simp [lf, cr] at hlast
    | blockComment hend =>
      rw [List.getLast?_cons, List.getLast?_cons, getLast?_of_commentEnd? hend] at hlast
      simp [cr] at hlast
    | string hquote hbody =>
      rw [List.getLast?_cons, hbody.getLast?] at hlast
      rcases hquote with rfl | rfl <;> simp [cr] at hlast
    | _ => simp_all
  · exact (h.within_line (by simp_all) _ (List.mem_of_getLast? hlast)).2 rfl

end Lexeme

/-- Every line feed of the text follows a carriage return. -/
def Text.IsCrlf (text : String) : Prop :=
  ∀ a b, Text.bytes text = a ++ Lexeme.lf :: b → a.getLast? = some Lexeme.cr

/-- The line feeds of a text, byte by byte. -/
theorem Text.isCrlf_iff {text : String} :
    Text.IsCrlf text ↔ Lexeme.crlfFrom 0 (Text.bytes text) = true := by
  -- the reader carries the byte before, which for a rest of the text may be any
  have hgeneral : ∀ (s : List UInt8) (before : UInt8),
      Lexeme.crlfFrom before s = true
        ↔ ∀ a b, s = a ++ Lexeme.lf :: b → a.getLastD before = Lexeme.cr := by
    intro s
    induction s with
    | nil => simp [Lexeme.crlfFrom]
    | cons x s ih =>
      intro before
      rw [Lexeme.crlfFrom, Bool.and_eq_true, ih]
      constructor
      · rintro ⟨hfirst, hrest⟩ a b hsplit
        rcases List.cons_eq_append_iff.mp hsplit with ⟨rfl, hcons⟩ | ⟨a', rfl, hcons⟩
        · obtain ⟨rfl, rfl⟩ := List.cons.inj hcons
          simpa [Lexeme.lf] using hfirst
        · rw [List.getLastD_cons]
          exact hrest a' b hcons
      · intro h
        refine ⟨?_, fun a b hsplit => ?_⟩
        · by_cases hx : x = Lexeme.lf
          · subst hx
            simpa using h [] s rfl
          · simp [hx]
        · rw [← List.getLastD_cons]
          exact h (x :: a) b (by rw [hsplit]; rfl)
  unfold Text.IsCrlf
  rw [hgeneral]
  refine forall_congr' fun a => forall_congr' fun b => imp_congr_right fun _ => ?_
  rw [List.getLastD_eq_getLast?]
  cases a.getLast? with
  | none => simp [Lexeme.cr]
  | some c => simp

instance (text : String) : Decidable (Text.IsCrlf text) := decidable_of_iff _ Text.isCrlf_iff.symm

/-! ## §2. The first line end of a file -/

/-- Tokens but for line ends, comments and strings hold no line feed. -/
theorem TokenKind.Heads.lf_notMem {kind : TokenKind} {text : String} {rest : List UInt8}
    (h : kind.Heads text rest) (hkind : kind ∉ [.eol, .comment, .string]) :
    Lexeme.lf ∉ Text.bytes text := by
  obtain ⟨tag, hformed, -, htag⟩ := h
  intro hin
  by_cases hblank : tag = .whitespace
  · subst hblank
    cases hformed with
    | whitespace hne hall =>
      have hbyte := hall _ hin
      simp [Lexeme.isBlank, Lexeme.isSpace, Lexeme.lf, Lexeme.cr] at hbyte
  · refine (hformed.within_line (fun htags => hkind ?_) _ hin).1 rfl
    simp only [List.mem_cons, List.not_mem_nil, or_false] at htags
    rcases htags with rfl | rfl | rfl | rfl | rfl
    · exact absurd rfl hblank
    all_goals
      rw [← Option.some.inj htag]
      simp

namespace TokenList

variable {list : TokenList} {a b : List TokenId} {id : TokenId} {token : Token}

/-- A comment that goes up to the end of its line. -/
def isLineComment (list : TokenList) (id : TokenId) : Bool :=
  list.kind? id == some .comment && (Text.bytes (list.textOf id)).take 2 == [0x2F, 0x2F]

/-- The file has a line end among its tokens, and the first is no end of a line comment. -/
def opensWithLineEnd (list : TokenList) : Bool :=
  match list.ids.find? fun id => list.kind? id == some .eol with
  | some id => !(list.prev? id).any list.isLineComment
  | none => false

/-- A line end is a line feed, alone or behind a carriage return. -/
theorem text_of_eol (hreads : (list.spells list.ids).Reads []) (hids : list.ids = a ++ id :: b)
    (hkind : list.kind? id = some .eol) : list.textOf id = "\n" ∨ list.textOf id = "\r\n" := by
  obtain ⟨token, htoken, heol, htext⟩ := get?_of_kind? hkind
  obtain ⟨tag, hformed, -, htag⟩ := heads_of_reads hreads hids htoken
  rw [heol] at htag
  obtain rfl := TokenKind.tag_of_eol htag
  rw [← htext]
  generalize hbytes : Text.bytes token.text = bytes at hformed
  cases hformed with
  | lineFeed => exact Or.inl (Text.bytes_inj.mp (hbytes.trans (by decide)))
  | carriageReturn => exact Or.inr (Text.bytes_inj.mp (hbytes.trans (by decide)))

/-- A token that begins with a line feed is one. -/
theorem text_of_head_lf (hreads : (list.spells list.ids).Reads [])
    (hids : list.ids = a ++ id :: b) (htoken : list.get? id = some token)
    (hhead : (Text.bytes token.text).head? = some Lexeme.lf) :
    token.kind = .eol ∧ token.text = "\n" := by
  obtain ⟨tag, hformed, -, htag⟩ := heads_of_reads hreads hids htoken
  obtain ⟨rest, hbytes⟩ := List.head?_eq_some_iff.mp hhead
  have hnewline := hformed
  rw [hbytes] at hnewline
  obtain rfl := hnewline.of_lf
  have hkind : token.kind = .eol := (Option.some.inj htag).symm
  refine ⟨hkind, ?_⟩
  have htext := text_of_eol hreads hids (by rw [kind?_of_get? htoken, hkind])
  rw [textOf_of_get? htoken] at htext
  refine htext.resolve_right fun he => ?_
  rw [he] at hhead
  exact absurd hhead (by decide)

/-- A token of a file whose line feeds follow carriage returns. -/
theorem crlfFrom_token (hcrlf : Text.IsCrlf (list.spells list.ids).text)
    (hids : list.ids = a ++ id :: b) (htoken : list.get? id = some token) :
    Lexeme.crlfFrom ((Text.bytes (list.spells a).text).getLastD 0) (Text.bytes token.text)
      = true := by
  rw [Text.isCrlf_iff, hids, spells_append, spells_cons htoken, Spelling.text_append,
    Spelling.text_cons, Text.bytes_append, Text.bytes_append, Lexeme.crlfFrom_append,
    Lexeme.crlfFrom_append, Bool.and_eq_true, Bool.and_eq_true] at hcrlf
  exact hcrlf.2.1

/-- **A line feed on its own** follows a line comment, which has taken the carriage return. -/
theorem lineComment_before (hreads : (list.spells list.ids).Reads [])
    (hlive : ∀ id ∈ list.ids, ∃ token, list.get? id = some token)
    (hcrlf : Text.IsCrlf (list.spells list.ids).text) (hids : list.ids = a ++ id :: b)
    (htext : list.textOf id = "\n") :
    ∃ before comment, a = before ++ [comment] ∧ list.isLineComment comment = true
      ∧ (Text.bytes (list.textOf comment)).getLast? = some Lexeme.cr := by
  obtain ⟨token, htoken⟩ := hlive id (by simp [hids])
  have hlast := crlfFrom_token hcrlf hids htoken
  rw [textOf_of_get? htoken] at htext
  have hlf : Text.bytes token.text = [Lexeme.lf] := by rw [htext]; decide
  replace hlast : (Text.bytes (list.spells a).text).getLastD 0 = Lexeme.cr := by
    rw [hlf] at hlast
    simpa [Lexeme.crlfFrom] using hlast
  rcases List.eq_nil_or_concat a with rfl | ⟨before, comment, rfl⟩
  · exact absurd (show (0 : UInt8) = Lexeme.cr from hlast) (by decide)
  rw [List.concat_eq_append] at hids hlast ⊢
  obtain ⟨text, hcomment⟩ := hlive comment (by simp [hids])
  have hsplit : list.ids = before ++ comment :: (id :: b) := by simp [hids]
  obtain ⟨tag, hformed, hstops, htag⟩ := heads_of_reads hreads hsplit hcomment
  have hcr : (Text.bytes text.text).getLast? = some Lexeme.cr := by
    rw [spells_append, spells_cons hcomment, Spelling.text_append, Spelling.text_cons,
      show Spelling.text (list.spells []) = "" from rfl, String.append_empty, Text.bytes_append,
      List.getLastD_eq_getLast?, List.getLast?_append] at hlast
    obtain ⟨c, hc⟩ := List.getLast?_isSome.mpr hformed.ne_nil |> Option.isSome_iff_exists.mp
    rw [hc] at hlast ⊢
    simpa using hlast
  refine ⟨before, comment, rfl, ?_, by rwa [textOf_of_get? hcomment]⟩
  -- a blank and a line comment are all that can end with a carriage return
  rcases hformed.tag_of_last_cr hcr with rfl | rfl
  · -- a blank does not end within a line end
    refine absurd ?_ (hstops.2 hcr)
    rw [spells_cons htoken, Spelling.text_cons, Text.bytes_append, hlf]
    rfl
  · unfold isLineComment
    rw [kind?_of_get? hcomment, textOf_of_get? hcomment, ← Option.some.inj htag]
    generalize Text.bytes text.text = bytes at hformed
    cases hformed with
    | lineComment hbody => rfl

/-- **The line end behind a line comment** is a line feed on its own. -/
theorem text_behind_lineComment (hreads : (list.spells list.ids).Reads []) {comment : TokenId}
    (hids : list.ids = a ++ comment :: id :: b) (hkind : list.kind? id = some .eol)
    (hcomment : list.isLineComment comment = true) : list.textOf id = "\n" := by
  have hfile : list.ids = (a ++ [comment]) ++ id :: b := by simp [hids]
  refine (text_of_eol hreads hfile hkind).resolve_right fun htext => ?_
  unfold isLineComment at hcomment
  rw [Bool.and_eq_true, beq_iff_eq, beq_iff_eq] at hcomment
  obtain ⟨text, hget, hline, hslash⟩ := get?_of_kind? hcomment.1
  obtain ⟨eol, heol, -, htext'⟩ := get?_of_kind? hkind
  obtain ⟨tag, hformed, hstops, htag⟩ := heads_of_reads hreads hids hget
  rw [hline] at htag
  have htake := hcomment.2
  rw [← hslash] at htake
  -- of the two comments only the one to the end of the line begins with two slashes
  have htag : tag = .lineComment := by
    rcases TokenKind.tag_of_kind htag (by decide) with ⟨-, hword⟩ | hother
    · rcases TokenKind.keyword?_getD text.text with ⟨-, hplain⟩ | hkeyword
      · simp [hplain] at hword
      · simp [← hword] at hkeyword
    · have hboth : tag = .lineComment ∨ tag = .blockComment := by simpa using hother
      refine hboth.resolve_right fun hblock => ?_
      subst hblock
      generalize Text.bytes text.text = bytes at hformed htake
      cases hformed with
      | blockComment hbody => simp at htake
  subst htag
  -- a line comment takes the carriage return along, so none is left for the line end
  have hhead := hstops Lexeme.cr (by
    rw [spells_cons heol, Spelling.text_cons, Text.bytes_append, htext', htext,
      show Text.bytes "\r\n" = [Lexeme.cr, Lexeme.lf] by decide]
    rfl)
  exact absurd hhead (by decide)

/-- **The line ending of a file** whose line feeds follow carriage returns has two bytes exactly
    when the file opens with a line end. -/
theorem newline_crlf_iff (hreads : (list.spells list.ids).Reads []) (hlive : list.WellFormed)
    (hcrlf : Text.IsCrlf (list.spells list.ids).text) :
    list.newline = "\r\n" ↔ list.opensWithLineEnd = true := by
  unfold newline opensWithLineEnd
  cases hfind : list.ids.find? fun id => list.kind? id == some .eol with
  | none => simp
  | some id =>
    dsimp only
    obtain ⟨hkind, a, b, hids, -⟩ := List.find?_eq_some_iff_append.mp hfind
    rw [beq_iff_eq] at hkind
    rw [hlive.threaded.prev?_eq hids, Bool.not_eq_true']
    have hget : ∀ id ∈ list.ids, ∃ token, list.get? id = some token := by
      intro id hid
      obtain ⟨token, htoken, -⟩ := hlive.threaded.get?_of_mem hid
      exact ⟨token, htoken⟩
    constructor
    · intro htext
      -- a line comment before it would leave the line feed alone
      rcases List.eq_nil_or_concat a with rfl | ⟨before, comment, rfl⟩
      · rfl
      · rw [List.concat_eq_append] at hids ⊢
        rw [List.getLast?_concat, Option.any_some, ← Bool.not_eq_true]
        intro hcomment
        have hsplit : list.ids = before ++ comment :: id :: b := by simp [hids]
        rw [text_behind_lineComment hreads hsplit hkind hcomment] at htext
        exact absurd htext (by decide)
    · intro hnone
      refine (text_of_eol hreads hids hkind).resolve_left fun htext => ?_
      obtain ⟨before, comment, rfl, hcomment, -⟩ :=
        lineComment_before hreads hget hcrlf hids htext
      rw [List.getLast?_concat, Option.any_some, hcomment] at hnone
      exact Bool.noConfusion hnone

end TokenList

/-! ## §3. New lines -/

/-- The bytes of pieces of text side by side. -/
theorem Spelling.bytes_flatMap {α : Type} (items : List α) (f : α → Spelling) :
    Text.bytes (Spelling.text (items.flatMap f))
      = items.flatMap fun item => Text.bytes (f item).text := by
  induction items with
  | nil => rfl
  | cons item items ih =>
    rw [List.flatMap_cons, List.flatMap_cons, Spelling.text_append, Text.bytes_append, ih]

/-- The tokens break lines in the way of the text only. -/
def Spelling.BreaksBy (eol : String) (spelling : Spelling) : Prop :=
  ∀ entry ∈ spelling, entry.2 = eol ∨ Lexeme.lf ∉ Text.bytes entry.2

namespace Spelling

variable {a b spelling : Spelling} {eol : String}

/-- Tokens behind tokens. -/
theorem BreaksBy.append (ha : a.BreaksBy eol) (hb : b.BreaksBy eol) : (a ++ b).BreaksBy eol :=
  fun entry hentry => (List.mem_append.mp hentry).elim (ha entry) (hb entry)

/-- Tokens that are read, none of them a comment or a string. -/
theorem BreaksBy.of_firm (hfirm : spelling.Firm)
    (hkinds : ∀ entry ∈ spelling, entry = (.eol, eol) ∨ entry.1 ∉ [.eol, .comment, .string]) :
    spelling.BreaksBy eol := by
  intro entry hentry
  rcases hkinds entry hentry with rfl | hkind
  · exact Or.inl rfl
  · obtain ⟨kind, text⟩ := entry
    obtain ⟨before, after, rfl⟩ := List.append_of_mem hentry
    exact Or.inr ((hfirm []).heads.lf_notMem hkind)

/-- **New tokens of a file with lines of two bytes** keep to them, whatever stands before. -/
theorem BreaksBy.crlfFrom (h : spelling.BreaksBy "\r\n") (before : UInt8) :
    Lexeme.crlfFrom before (Text.bytes spelling.text) = true := by
  induction spelling generalizing before with
  | nil => rfl
  | cons entry rest ih =>
    obtain ⟨kind, text⟩ := entry
    rw [Spelling.text_cons, Text.bytes_append, Lexeme.crlfFrom_append, Bool.and_eq_true]
    refine ⟨?_, ih (fun entry hentry => h entry (List.mem_cons_of_mem _ hentry)) _⟩
    rcases h _ List.mem_cons_self with htext | hno
    · rw [show text = "\r\n" from htext,
        show Text.bytes "\r\n" = [Lexeme.cr, Lexeme.lf] by decide]
      rfl
    · exact Lexeme.crlfFrom_of_notMem hno

end Spelling

/-- A piece that breaks no line but as line ends do. -/
def Piece.isInline : Piece → Bool
  | .string _ => false
  | .punct kind => kind != .eol && kind != .comment && kind != .string
  | _ => true

/-- A piece that stays in its line is spelled without comments and strings, and with line ends of
    the file only. -/
theorem Piece.kind_of_inline {piece : Piece} {eol : String} {entry : TokenKind × String}
    (hinline : piece.isInline = true) (h : entry ∈ piece.spell eol) :
    entry = (.eol, eol) ∨ entry.1 ∉ [.eol, .comment, .string] := by
  cases piece with
  | call name args =>
    have hkind := Piece.kind_of_call h
    refine Or.inr fun hother => ?_
    simp only [List.mem_cons, List.not_mem_nil, or_false] at hkind hother
    rcases hother with he | he | he <;> simp [he] at hkind
  | punct kind =>
    rw [List.mem_singleton.mp h]
    simp only [isInline, Bool.and_eq_true, bne_iff_ne] at hinline
    exact Or.inr (by simp [hinline])
  | eol => exact Or.inl (List.mem_singleton.mp h)
  | string text => exact Bool.noConfusion hinline
  | symbol _ | space | indent _ | number _ =>
    rw [List.mem_singleton.mp h]
    exact Or.inr (by simp)

namespace Weave

variable {doc : Document} {types : List Declared}

/-- New tokens by their kinds: line ends of the file, and tokens that stay in their line. -/
def Inline (doc : Document) (spelling : Spelling) : Prop :=
  ∀ entry ∈ spelling, entry = (.eol, doc.newline) ∨ entry.1 ∉ [.eol, .comment, .string]

/-- Pieces that stay in their line. -/
theorem inline_spelled {pieces : List Piece}
    (h : ∀ piece ∈ pieces, piece.isInline = true) : Inline doc (spelled doc pieces) := by
  intro entry hentry
  obtain ⟨piece, hpiece, hin⟩ := List.mem_flatMap.mp hentry
  exact Piece.kind_of_inline (h piece hpiece) hin

/-- The lines of kernels. -/
theorem inline_kernelLines {mark : NodeId → Option NodeId}
    {line : Declared → NodeId → String → String → Spelling}
    (h : ∀ type function name param, Inline doc (line type function name param))
    (used : List (Declared × Occurrence)) (id : TokenId) :
    Inline doc (kernelLines doc mark line used id) := by
  intro entry hentry
  unfold kernelLines at hentry
  split at hentry
  · obtain ⟨⟨type, use⟩, -, hin⟩ := List.mem_flatMap.mp hentry
    dsimp only at hin
    split at hin
    · split at hin
      · exact h _ _ _ _ entry hin
      · simp at hin
    · simp at hin
  · simp at hentry

/-- What stands for a use. -/
theorem inline_replacement (type : Declared) (use : Occurrence) :
    Inline doc (replacement doc type use) := by
  unfold replacement
  split
  · exact inline_spelled (by simp [Piece.isInline])
  · exact inline_spelled (by simp [Piece.isInline])

namespace Legible

variable (h : Legible doc types) (id : TokenId)

include h

/-- **What leads a token** breaks lines as the file does. -/
theorem lead_breaksBy : (final doc types id).lead.BreaksBy doc.newline := by
  have hlines : Inline doc (typeLines doc types id
      ++ kernelLines doc some (globalLine doc) (uses types) id) := by
    intro entry hentry
    rcases List.mem_append.mp hentry with hentry | hentry
    · obtain ⟨type, -, hin⟩ := List.mem_flatMap.mp hentry
      exact inline_spelled (by simp [Lowering.typePieces, Piece.isInline]) entry hin
    · exact inline_kernelLines (fun _ _ _ _ => inline_spelled (by simp [Piece.isInline])) _ _
        entry hentry
  have hlead : (final doc types id).lead = includeLine doc id ++ (typeLines doc types id
      ++ kernelLines doc some (globalLine doc) (uses types) id) := List.append_assoc _ _ _
  have hfirm := (h.lead id).firm
  rw [show (weft doc (includeLine doc) types (uses types) id).lead = _ from hlead] at hfirm
  rw [hlead]
  refine Spelling.BreaksBy.append (fun entry hentry => ?_)
    (.of_firm (fun rest => (Spelling.reads_append.mp (hfirm rest)).2) hlines)
  -- the header is quoted, and its name has no line feed
  unfold includeLine at hentry
  split at hentry
  · simp only [spelled, List.flatMap_cons, List.flatMap_nil, Piece.spell, List.append_nil,
      List.singleton_append, List.mem_cons, List.not_mem_nil, or_false] at hentry
    rcases hentry with rfl | rfl | rfl | rfl | rfl
    · exact Or.inr (by decide)
    · exact Or.inr (by decide)
    · exact Or.inr (by decide)
    · refine Or.inr fun hin => ?_
      simp only [Text.bytes_append, List.mem_append] at hin
      rcases hin with (hin | hin) | hin
      · exact absurd hin (by decide)
      · exact Config.prologue_plain h.header _ hin (by simp)
      · exact absurd hin (by decide)
    · exact Or.inl rfl
  · simp at hentry

/-- **What follows a token** breaks lines as the file does. -/
theorem trail_breaksBy : (final doc types id).trail.BreaksBy doc.newline := by
  have hlines : Inline doc
      (kernelLines doc (Outline.functionBody? doc.tree) (bindLine doc) (uses types) id) :=
    inline_kernelLines (fun _ _ _ _ => inline_spelled (by simp [Piece.isInline])) _ _
  exact .of_firm (h.trail id).firm hlines

/-- **What stands for a use** breaks no line. -/
theorem replacement_breaksBy {u : Declared × Occurrence} (hu : u ∈ uses types)
    (hfound : Occurrence.Found doc u.2) :
    (replacement doc u.1 u.2).BreaksBy doc.newline := by
  obtain ⟨-, ⟨-, hfirm⟩ | ⟨-, hname, -⟩⟩ := h.replacement_cases hu hfound
  · exact .of_firm hfirm (inline_replacement _ _)
  · rw [hname]
    intro entry hentry
    rw [List.mem_singleton.mp hentry]
    refine Or.inr fun hin => ?_
    have hpart := (h.worded _ (Lowering.mem_uses.mp hu).1).name.part _ hin
    simp [isIdentPart, isIdentStart, Lexeme.isDigit, Lexeme.lf] at hpart

end Legible

/-! ## §4. The prepared file -/

/-- **The inclusion of the header** in a prepared file, where some token says something. -/
theorem woven_header {id : TokenId} (types : List Declared) (hid : id ∈ doc.tokens.ids)
    (hsig : doc.tokens.isSignificant id = true) :
    ∃ before after : Spelling, woven doc types doc.tokens.ids = before
      ++ (.string, "\"" ++ doc.config.prologue ++ "\"") :: (.eol, doc.newline) :: after := by
  -- it leads the first such token
  obtain ⟨first, hfirst⟩ := Option.isSome_iff_exists.mp
    (List.find?_isSome.mpr ⟨id, hid, hsig⟩ : (doc.tokens.ids.find? doc.tokens.isSignificant).isSome)
  obtain ⟨-, a, b, hids, -⟩ := List.find?_eq_some_iff_append.mp hfirst
  have hheader : includeLine doc first = [(.hash, "#"), (.symbol, "include"), (.whitespace, " "),
      (.string, "\"" ++ doc.config.prologue ++ "\""), (.eol, doc.newline)] := by
    unfold includeLine
    rw [if_pos hfirst]
    rfl
  have hlead : ∃ rest, (final doc types first).lead = includeLine doc first ++ rest :=
    ⟨_, List.append_assoc _ _ _⟩
  obtain ⟨rest, hlead⟩ := hlead
  refine ⟨woven doc types a ++ [(.hash, "#"), (.symbol, "include"), (.whitespace, " ")],
    rest ++ ((final doc types first).core?.getD (doc.tokens.spells [first])
      ++ ((final doc types first).trail ++ woven doc types b)), ?_⟩
  rw [hids, woven, List.flatMap_append, ← woven, ← woven, woven_cons, hlead, hheader]
  simp only [List.append_assoc, List.cons_append, List.nil_append]

/-- **A line feed alone behind the header** is one that follows no carriage return. -/
theorem not_isCrlf_woven {id : TokenId} (types : List Declared) (hid : id ∈ doc.tokens.ids)
    (hsig : doc.tokens.isSignificant id = true) (hnewline : doc.newline = "\n") :
    ¬ Text.IsCrlf (woven doc types doc.tokens.ids).text := by
  obtain ⟨before, after, hwoven⟩ := woven_header types hid hsig
  have hbytes : Text.bytes (woven doc types doc.tokens.ids).text
      = (Text.bytes before.text ++ Text.bytes ("\"" ++ doc.config.prologue) ++ [0x22])
        ++ Lexeme.lf :: Text.bytes after.text := by
    simp only [hwoven, hnewline, Spelling.text_append, Spelling.text_cons, Text.bytes_append,
      show Text.bytes "\"" = [0x22] by decide, show Text.bytes "\n" = [Lexeme.lf] by decide,
      List.append_assoc, List.cons_append, List.nil_append]
  intro hcrlf
  have hlast := hcrlf _ _ hbytes
  rw [List.getLast?_concat, Option.some.injEq] at hlast
  exact absurd hlast (by decide)

namespace Done

variable {a b : List TokenId} {id : TokenId}

/-- Trivia that was left alone has become what it was. -/
theorem spelling_trivia (h : Done doc types) (hid : id ∈ doc.tokens.ids)
    (htrivia : doc.tokens.isSignificant id = false) (hself : core? doc (uses types) id = none) :
    (final doc types id).spelling (doc.tokens.spells [id]) = doc.tokens.spells [id] := by
  obtain ⟨hlead, htrail⟩ := h.bare_trivia hid htrivia
  unfold Weft.spelling
  rw [hlead, htrail, show (final doc types id).core? = none from hself]
  simp

/-- Trivia before a token that was left alone was left alone: a use does not end with it. -/
theorem self_before (h : Done doc types) {next : TokenId}
    (hids : doc.tokens.ids = a ++ id :: next :: b) (htrivia : doc.tokens.isSignificant id = false)
    (hself : core? doc (uses types) next = none) : core? doc (uses types) id = none := by
  have hfile : doc.tokens.ids = (a ++ [id]) ++ next :: b := by simp [hids]
  have hout := (core?_none h.loaded h.found next).mp hself
  refine (core?_none h.loaded h.found id).mpr fun u hu ⟨hlow, hhigh⟩ => hout u hu ?_
  have hnear := h.loaded.unedited.index_eq hids
  have hfar := h.loaded.unedited.index_eq hfile
  simp only [List.length_append, List.length_singleton] at hfar
  -- were it the last token of the use, it would be significant
  have hne : id.index ≠ (cut u.2).last.index := by
    intro he
    rw [TokenId.ext_index he, h.cut_significant hu] at htrivia
    exact Bool.noConfusion htrivia
  omega

/-- What has become of a token keeps to lines of two bytes, if what stands for it does. -/
theorem crlfFrom_spelling (h : Done doc types) (hnewline : doc.newline = "\r\n") (before : UInt8)
    (hcore : ∀ before, Lexeme.crlfFrom before (Text.bytes (Spelling.text
      ((final doc types id).core?.getD (doc.tokens.spells [id])))) = true) :
    Lexeme.crlfFrom before (Text.bytes (Spelling.text
      ((final doc types id).spelling (doc.tokens.spells [id])))) = true := by
  have hlead := h.legible.lead_breaksBy id
  have htrail := h.legible.trail_breaksBy id
  rw [hnewline] at hlead htrail
  unfold Weft.spelling
  rw [Spelling.text_append, Spelling.text_append, Text.bytes_append, Text.bytes_append,
    Lexeme.crlfFrom_append, Lexeme.crlfFrom_append, hlead.crlfFrom, hcore, htrail.crlfFrom]
  rfl

/-- **A file with lines of two bytes** stays one when new lines end so. -/
theorem isCrlf_woven (h : Done doc types)
    (hcrlf : Text.IsCrlf (doc.tokens.spells doc.tokens.ids).text)
    (hnewline : doc.newline = "\r\n") : Text.IsCrlf (woven doc types doc.tokens.ids).text := by
  have hlive : ∀ id ∈ doc.tokens.ids, ∃ token, doc.tokens.get? id = some token := by
    intro id hid
    obtain ⟨token, htoken, -⟩ := h.loaded.threaded.get?_of_mem hid
    exact ⟨token, htoken⟩
  rw [Text.isCrlf_iff, woven, Spelling.bytes_flatMap]
  -- token by token: what stands for each breaks lines well, whatever stands before it
  refine Lexeme.crlfFrom_flatMap fun a id b hids => ?_
  have hid : id ∈ doc.tokens.ids := by simp [hids]
  obtain ⟨token, htoken⟩ := hlive id hid
  have hspells : Spelling.text (doc.tokens.spells [id]) = token.text := by
    rw [TokenList.spells_cons htoken, Spelling.text_cons]
    exact String.append_empty
  rcases h.core?_cases id with ⟨hself, -⟩ | ⟨u, hu, rfl, hcore⟩ | ⟨hgone, -⟩
  · by_cases hbare : (Text.bytes token.text).head? = some Lexeme.lf
    · -- a line feed that stands alone: the comment before it is still there
      obtain ⟨heol, htext⟩ := TokenList.text_of_head_lf h.reads hids htoken hbare
      have htrivia : doc.tokens.isSignificant id = false := by
        rw [TokenList.isSignificant_of_get? htoken, heol]
        rfl
      obtain ⟨before, comment, rfl, hcomment, hlast⟩ :=
        TokenList.lineComment_before h.reads hlive hcrlf hids
          ((TokenList.textOf_of_get? htoken).trans htext)
      have hfile : doc.tokens.ids = before ++ comment :: id :: b := by simp [hids]
      have hkind : doc.tokens.isSignificant comment = false := by
        unfold TokenList.isLineComment at hcomment
        rw [Bool.and_eq_true, beq_iff_eq] at hcomment
        unfold TokenList.isSignificant
        rw [hcomment.1]
        rfl
      have hkept := h.spelling_trivia (by simp [hids]) hkind (h.self_before hfile hkind hself)
      obtain ⟨text, hget⟩ := hlive comment (by simp [hids])
      rw [h.spelling_trivia hid htrivia hself, hspells, htext, List.flatMap_append,
        List.flatMap_singleton, hkept, TokenList.spells_cons hget, Spelling.text_cons,
        show Spelling.text (doc.tokens.spells []) = "" from rfl, String.append_empty,
        ← TokenList.textOf_of_get? hget, List.getLastD_eq_getLast?, List.getLast?_append, hlast,
        Option.some_or, Option.getD_some]
      decide
    · refine h.crlfFrom_spelling hnewline _ fun before => ?_
      rw [show (final doc types id).core? = none from hself, Option.getD_none, hspells]
      exact Lexeme.crlfFrom_congr (TokenList.crlfFrom_token hcrlf hids htoken) hbare
  · refine h.crlfFrom_spelling hnewline _ fun before => ?_
    have hbreaks := h.legible.replacement_breaksBy hu (h.found u hu)
    rw [hnewline] at hbreaks
    rw [show (final doc types u.2.keyword).core? = _ from hcore, Option.getD_some]
    exact hbreaks.crlfFrom before
  · refine h.crlfFrom_spelling hnewline _ fun before => ?_
    rw [show (final doc types id).core? = some [] from hgone]
    rfl

/-- Without a token that says something nothing is put in. -/
theorem woven_of_trivia (h : Done doc types)
    (hnone : ∀ id ∈ doc.tokens.ids, doc.tokens.isSignificant id = false) :
    woven doc types doc.tokens.ids = doc.tokens.spells doc.tokens.ids := by
  have hself : ∀ id ∈ doc.tokens.ids,
      (final doc types id).spelling (doc.tokens.spells [id]) = doc.tokens.spells [id] := by
    intro id hid
    refine h.spelling_trivia hid (hnone id hid) ?_
    refine (core?_none h.loaded h.found id).mpr fun u hu _ => ?_
    have hsig := h.cut_significant hu
    rw [hnone _ (cut_between h.loaded (h.found u hu)).2.1] at hsig
    exact Bool.noConfusion hsig
  have hsplit : ∀ ids : List TokenId, doc.tokens.spells ids
      = ids.flatMap fun id => doc.tokens.spells [id] := by
    intro ids
    induction ids with
    | nil => rfl
    | cons id ids ih => rw [List.flatMap_cons, ← ih, ← TokenList.spells_append]; rfl
  rw [woven, hsplit doc.tokens.ids]
  exact List.flatMap_congr hself

/-- **When a prepared file keeps to lines of two bytes**: nothing was put in, or new lines end so
    too. -/
theorem isCrlf_iff (h : Done doc types)
    (hcrlf : Text.IsCrlf (doc.tokens.spells doc.tokens.ids).text) :
    Text.IsCrlf (woven doc types doc.tokens.ids).text
      ↔ (∀ id ∈ doc.tokens.ids, doc.tokens.isSignificant id = false)
        ∨ doc.newline = "\r\n" := by
  constructor
  · intro hwoven
    by_contra hno
    push Not at hno
    obtain ⟨⟨id, hid, hsig⟩, hne⟩ := hno
    refine not_isCrlf_woven types hid (by simpa using hsig) ?_ hwoven
    -- a line ending is a line feed, alone or behind a carriage return
    have hformed := h.legible.newline
    generalize hbytes : Text.bytes doc.newline = bytes at hformed
    cases hformed with
    | lineFeed => exact Text.bytes_inj.mp (hbytes.trans (by decide))
    | carriageReturn => exact absurd (Text.bytes_inj.mp (hbytes.trans (by decide))) hne
  · rintro (hnone | hnewline)
    · rwa [h.woven_of_trivia hnone]
    · exact h.isCrlf_woven hcrlf hnewline

end Done

end Weave

/-! ## §5. A file -/

/-- **The line ends of a prepared file.**  Of a source whose line feeds all follow carriage
    returns the prepared file keeps to such lines exactly when it has nothing but blanks,
    comments and line ends, or when its first line end is no end of a line comment. -/
theorem process_lineEnds [ContentHash] {σ : Type} {disk : Disk (StateM σ)} {s s' : σ}
    {config : Config}
    {source text : String} (hheader : config.prologue? = none) (hsource : Text.IsCrlf source)
    (h : (process disk config source).run s = (.ok text, s')) :
    ∃ list, TokenList.lex source = .ok list
      ∧ (Text.IsCrlf text ↔ (∀ id ∈ list.ids, list.isSignificant id = false)
        ∨ list.opensWithLineEnd = true) := by
  obtain ⟨doc, doc₁, state, hload, hfabric, hdiscover, hrun, rfl⟩ := process_lowers h
  obtain ⟨hlex, -, -, hnewline⟩ := Document.load_ok hload
  obtain ⟨-, types, -, -, -, -, hdone, hspells⟩ :=
    Lowering.run_done hload hheader hfabric hdiscover hrun
  obtain ⟨hreads, hsame⟩ := TokenList.lex_reads hlex
  have htext : state.document.text = (Weave.woven doc types doc.tokens.ids).text := by
    rw [← hspells, TokenList.text_spells]
    rfl
  have hlines : Text.IsCrlf (doc.tokens.spells doc.tokens.ids).text := by rwa [hsame]
  refine ⟨doc.tokens, hlex, ?_⟩
  rw [htext, hdone.isCrlf_iff hlines, hnewline,
    TokenList.newline_crlf_iff hreads hdone.loaded.unedited.wellFormed hlines]

/-- Behind a line comment new lines end with a line feed alone.  Where the first line end stands
    by itself they end as it does. -/
theorem process_lineEnds_comment :
    ∃ disk : Disk (StateM Unit),
      (∃ text, (process disk {} "// a\r\nint x;\r\n").run () = (.ok text, ())
        ∧ Text.IsCrlf "// a\r\nint x;\r\n" ∧ ¬ Text.IsCrlf text)
      ∧ ∃ text, (process disk {} "int x;\r\n// a\r\n").run () = (.ok text, ())
        ∧ Text.IsCrlf "int x;\r\n// a\r\n" ∧ Text.IsCrlf text := by
  let disk : Disk (StateM Unit) :=
    ⟨fun _ => pure (.error .notFound), fun _ _ => pure (.ok ())⟩
  -- a run that goes through, with the verdict on its lines
  have hcase : ∀ (source : String) (verdict : Bool), Text.IsCrlf source →
      ((TokenList.lex source).toOption.map fun list =>
        (((process disk {} source).run ()).1.isOk, list.ids.any list.isSignificant,
          list.opensWithLineEnd)) = some (true, true, verdict) →
      ∃ text, (process disk {} source).run () = (.ok text, ())
        ∧ (Text.IsCrlf text ↔ verdict = true) := by
    intro source verdict hsource heval
    cases hlex : TokenList.lex source with
    | error error => simp [hlex, Except.toOption] at heval
    | ok list =>
      rw [hlex] at heval
      simp only [Except.toOption, Option.map_some, Option.some.injEq, Prod.mk.injEq] at heval
      obtain ⟨hok, hany, hverdict⟩ := heval
      cases hrun : (process disk {} source).run () with
      | mk result t =>
        rw [hrun] at hok
        cases result with
        | error error => simp [Except.isOk, Except.toBool] at hok
        | ok text =>
          obtain ⟨list', hlex', hiff⟩ := process_lineEnds rfl hsource hrun
          obtain rfl : list = list' := Except.ok.inj (hlex.symm.trans hlex')
          refine ⟨text, rfl, ?_⟩
          rw [hiff, hverdict, or_iff_right]
          intro hnone
          obtain ⟨id, hid, hsig⟩ := List.any_eq_true.mp hany
          rw [hnone id hid] at hsig
          exact Bool.noConfusion hsig
  refine ⟨disk, ?_, ?_⟩
  · obtain ⟨text, hrun, hiff⟩ := hcase "// a\r\nint x;\r\n" false (by decide) (by decide +kernel)
    exact ⟨text, hrun, by decide, fun hcrlf => Bool.noConfusion (hiff.mp hcrlf)⟩
  · obtain ⟨text, hrun, hiff⟩ := hcase "int x;\r\n// a\r\n" true (by decide) (by decide +kernel)
    exact ⟨text, hrun, by decide, hiff.mpr rfl⟩

end KernelPrep
