/-
  KernelPrep.Proofs.Texture.ReadBack — whether a prepared file is read back as it is.

  Passes spell new tokens without reading them, so the prepared file is a list of tokens and a
  text, and the text might be read as other tokens.  Lines put in are read as they are, since
  they stand where a construct may begin or behind a brace, and so is the macro of a kernel
  parameter, which ends with a bracket.  The name of a type is not set off: it takes the place
  of a keyword or of a `>`, and behind a `>` a word may follow directly.  Then the two are one
  word when the text is read.

  Main definitions:
    * `Document.ReadsBack`  — reading the text gives the tokens;
    * `Occurrence.runsOn`   — a word follows a use that becomes a name.

  Main statements:
    * `Weave.Done.heads_self`   — a token that was left alone is read as before;
    * `Weave.Done.reads_named`  — the name of a type is read if no word follows;
    * `Session.apply_readsBack` — a prepared file is read back unless a use runs on.
-/
import KernelPrep.Proofs.Texture.Opening
import KernelPrep.Proofs.Texture.Wording

namespace KernelPrep

open Lexeme (isIdentPart isIdentStart isBreak Alike)
open Weave (Declared)

/-! ## §1. Reading back -/

/-- Reading the text of the document gives its tokens, by kind and text. -/
def Document.ReadsBack (doc : Document) : Prop :=
  ∃ list, TokenList.lex doc.text = .ok list
    ∧ list.spells list.ids = doc.tokens.spells doc.tokens.ids

/-- A document is read back when its tokens are what the scanner cuts off its text. -/
theorem Document.readsBack_iff (doc : Document) :
    doc.ReadsBack ↔ (doc.tokens.spells doc.tokens.ids).Reads [] := by
  have htext : (doc.tokens.spells doc.tokens.ids).text = doc.text := TokenList.text_spells _ _
  constructor
  · rintro ⟨list, hlex, hspells⟩
    rw [← hspells]
    exact (TokenList.lex_reads hlex).1
  · intro hreads
    obtain ⟨list, hlex, hspells⟩ := TokenList.lex_of_reads hreads
    rw [htext] at hlex
    exact ⟨list, hlex, hspells⟩

/-- **Tokens in groups** are read when each group is read before the text of the others. -/
theorem Spelling.reads_flatMap {α : Type} {items : List α} {f : α → Spelling}
    {rest : List UInt8} :
    Spelling.Reads (items.flatMap f) rest ↔ ∀ a item b, items = a ++ item :: b →
      (f item).Reads (Text.bytes (Spelling.text (b.flatMap f)) ++ rest) := by
  induction items with
  | nil => simp [Spelling.Reads]
  | cons item items ih =>
    rw [List.flatMap_cons, Spelling.reads_append, ih]
    constructor
    · rintro ⟨hfirst, hmore⟩ a item' b hsplit
      rcases List.cons_eq_append_iff.mp hsplit with ⟨-, hcons⟩ | ⟨a', -, hcons⟩
      · obtain ⟨rfl, rfl⟩ := List.cons.inj hcons
        exact hfirst
      · exact hmore a' item' b hcons
    · intro h
      exact ⟨h [] item items rfl, fun a item' b hsplit => h (item :: a) item' b (by simp [hsplit])⟩

namespace TokenKind

variable {kind : TokenKind} {text : String} {old new rest more : List UInt8} {b c : UInt8}

/-- A significant token is read before every break. -/
theorem Heads.break (h : kind.Heads text rest) (hkind : kind.isTrivia = false)
    (hb : isBreak b = true) : kind.Heads text (b :: more) := by
  obtain ⟨tag, hformed, -, htag⟩ := h
  refine ⟨tag, hformed, Lexeme.stops_break ?_ ?_ hb, htag⟩
  · rintro rfl
    rw [← Option.some.inj htag] at hkind
    exact Bool.noConfusion hkind
  · rintro rfl
    rw [← Option.some.inj htag] at hkind
    exact Bool.noConfusion hkind

/-- **Trivia, semicolons and braces** are read before a `#` and before a word; only a line
    comment has to end with its line. -/
theorem Heads.opening (h : kind.Heads text (c :: rest)) (hc : c ≠ Lexeme.lf)
    (hkind : kind.isTrivia = true ∨ kind ∈ [.semicolon, .rbrace, .lbrace])
    (hb : (b == 0x23 || isIdentStart b) = true) : kind.Heads text (b :: more) := by
  obtain ⟨tag, hformed, hstops, htag⟩ := h
  have hplain : Lexeme.isSpace b = false ∧ b ≠ Lexeme.cr ∧ b ≠ Lexeme.lf := by
    rcases Bool.or_eq_true_iff.mp hb with hb | hb
    · rw [beq_iff_eq.mp hb]
      decide
    · exact (Lexeme.isIdentPart_plain (Lexeme.isIdentPart_of_start hb)).2
  refine ⟨tag, hformed, ?_, htag⟩
  rcases hkind with htrivia | hfirm
  · have hmem := tag_of_trivia htag htrivia
    simp only [List.mem_cons, List.not_mem_nil, or_false] at hmem
    rcases hmem with rfl | rfl | rfl | rfl
    · exact Lexeme.stops_blank hplain.1 hplain.2.1 hplain.2.2
    · trivial
    · exact absurd (hstops c rfl) hc
    · trivial
  -- these are read as one byte, whatever is behind
  · have hall : ∀ kind ∈ [TokenKind.semicolon, .rbrace, .lbrace],
        kind.code < 0x100 ∧ Lexeme.isFirm (UInt8.ofNat kind.code) = true := by decide
    obtain ⟨hcode, hbyte⟩ := hall kind hfirm
    rw [tag_of_operator htag hcode]
    exact Lexeme.stops_firm hbyte

end TokenKind

/-- A name is read before everything that does not go on with it, and only there. -/
theorem Text.IsName.heads_iff {text : String} (h : Text.IsName text) {rest : List UInt8} :
    TokenKind.symbol.Heads text rest ↔ ∀ b ∈ rest.head?, isIdentPart b = false := by
  refine ⟨fun hheads => ?_, h.heads⟩
  obtain ⟨tag, hformed, hstops, -⟩ := hheads
  obtain ⟨b, body, hbytes, hstart⟩ := h.head
  rw [hformed.tag_of_start (by rwa [hbytes])] at hstops
  exact hstops

/-! ## §2. The prepared file -/

namespace Occurrence

/-- The use becomes the name of its type.  A kernel parameter becomes a macro. -/
def isNamed (use : Occurrence) : Bool :=
  match use.context with
  | .kernelParam .. => false
  | _ => true

/-- A word follows the type of a use that becomes a name, with nothing between them. -/
def runsOn (doc : Document) (use : Occurrence) : Bool :=
  use.isNamed && (doc.tokens.next? use.stop).any fun id =>
    isIdentPart ((Text.bytes (doc.tokens.textOf id)).headD 0)

end Occurrence

namespace Weave

open Spelling (Firm Begins)

/-- What a token has become when all uses are done. -/
def final (doc : Document) (types : List Declared) (id : TokenId) : Weft :=
  weft doc (includeLine doc) types (uses types) id

/-- What some tokens have become. -/
def woven (doc : Document) (types : List Declared) (ids : List TokenId) : Spelling :=
  ids.flatMap fun id => (final doc types id).spelling (doc.tokens.spells [id])

theorem woven_cons (doc : Document) (types : List Declared) (id : TokenId) (ids : List TokenId) :
    woven doc types (id :: ids)
      = (final doc types id).lead ++ ((final doc types id).core?.getD (doc.tokens.spells [id])
        ++ ((final doc types id).trail ++ woven doc types ids)) := by
  unfold woven Weft.spelling
  rw [List.flatMap_cons]
  simp only [List.append_assoc]

/-- All uses of a loaded document are done, none of them inside of another, and lines lead
    constructs at file scope and follow the first tokens of function bodies only. -/
structure Done (doc : Document) (types : List Declared) : Prop where
  load : ∃ config source, Document.load config source = .ok doc
  legible : Legible doc types
  found : ∀ u ∈ uses types, Occurrence.Found doc u.2
  worded : ∀ u ∈ uses types, Occurrence.Worded doc u.2
  apart : ∀ u ∈ uses types, ∀ v ∈ uses types, v.2.keyword ∈ doc.tokens.range (cut u.2) →
    v.2 = u.2
  led : ∀ id ∈ doc.tokens.ids, (final doc types id).lead ≠ [] →
    ∃ construct, doc.AtScope construct ∧ doc.Starts construct id
  trailed : ∀ id ∈ doc.tokens.ids, (final doc types id).trail ≠ [] →
    ∃ function body, doc.IsBody function body ∧ doc.Starts body id

/-- What stands for a use is a macro or the name of its type. -/
theorem Legible.replacement_cases {doc : Document} {types : List Declared}
    (h : Legible doc types) {u : Declared × Occurrence} (hu : u ∈ uses types)
    (hfound : Occurrence.Found doc u.2) :
    Begins isIdentStart (replacement doc u.1 u.2)
      ∧ ((u.2.isNamed = false ∧ Firm (replacement doc u.1 u.2))
        ∨ (u.2.isNamed = true ∧ replacement doc u.1 u.2 = [(.symbol, u.1.name)]
          ∧ cut u.2 = ⟨u.2.keyword, u.2.stop⟩)) := by
  obtain ⟨htype, huse⟩ := Lowering.mem_uses.mp hu
  obtain ⟨b, body, hbytes, hstart⟩ := (h.worded _ htype).name.head
  cases hcontext : u.2.context with
  | kernelParam function name definition =>
    obtain ⟨param, hparam⟩ :=
      Option.isSome_iff_exists.mp (hfound.own.named _ _ _ hcontext)
    obtain ⟨hfirm, hbegins⟩ : Firm (replacement doc u.1 u.2)
        ∧ Begins isIdentStart (replacement doc u.1 u.2) :=
      replacement_firm hcontext hparam (h.param _ htype _ huse _ hparam)
    exact ⟨hbegins, Or.inl ⟨by simp [Occurrence.isNamed, hcontext], hfirm⟩⟩
  | declaration | param =>
    have hname : replacement doc u.1 u.2 = [(.symbol, u.1.name)] := by
      unfold replacement
      rw [hcontext]
      rfl
    refine ⟨?_, Or.inr ⟨by simp [Occurrence.isNamed, hcontext], hname, ?_⟩⟩
    · rw [hname]
      exact Spelling.begins_cons hbytes hstart
    · unfold cut
      rw [hcontext]

namespace Done

variable {doc : Document} {types : List Declared} {a b : List TokenId} {id : TokenId}
  {token : Token}

theorem loaded (h : Done doc types) : Loaded doc := by
  obtain ⟨config, source, hload⟩ := h.load
  exact Document.load_loaded hload

theorem reads (h : Done doc types) : (doc.tokens.spells doc.tokens.ids).Reads [] := by
  obtain ⟨config, source, hload⟩ := h.load
  exact (TokenList.lex_reads (Document.load_ok hload).1).1

/-- A token stands for itself, is the keyword of a use, or is gone with a use. -/
theorem core?_cases (h : Done doc types) (id : TokenId) :
    (core? doc (uses types) id = none ∧ ∀ u ∈ uses types,
      ¬ (u.2.keyword.index ≤ id.index ∧ id.index ≤ (cut u.2).last.index))
    ∨ (∃ u ∈ uses types, u.2.keyword = id
      ∧ core? doc (uses types) id = some (replacement doc u.1 u.2))
    ∨ (core? doc (uses types) id = some [] ∧ ∃ u ∈ uses types,
      u.2.keyword.index < id.index ∧ id.index ≤ (cut u.2).last.index) :=
  Weave.core?_cases h.loaded h.found id

/-- At the keyword of a use stands what is made of the use. -/
theorem core?_keyword (h : Done doc types) {u : Declared × Occurrence} (hu : u ∈ uses types) :
    ∃ v ∈ uses types, v.2 = u.2
      ∧ core? doc (uses types) u.2.keyword = some (replacement doc v.1 v.2) := by
  have hforward := cut_forward h.loaded (h.found u hu)
  rcases h.core?_cases u.2.keyword with ⟨-, hout⟩ | ⟨v, hv, hkey, hcore⟩ | ⟨-, v, hv, hlow, hhigh⟩
  · exact absurd ⟨Nat.le_refl _, hforward⟩ (hout u hu)
  · refine ⟨v, hv, h.apart u hu v hv ?_, hcore⟩
    rw [hkey]
    exact (mem_cut_iff h.loaded (h.found u hu) _).mpr ⟨Nat.le_refl _, hforward⟩
  · have hsame := h.apart v hv u hu
      ((mem_cut_iff h.loaded (h.found v hv) _).mpr ⟨Nat.le_of_lt hlow, hhigh⟩)
    rw [hsame] at hlow
    exact absurd hlow (Nat.lt_irrefl _)

/-- **The tokens of a use** behind its keyword are gone, and nothing stands around them. -/
theorem spelling_inside (h : Done doc types) {u : Declared × Occurrence} (hu : u ∈ uses types)
    (hid : id ∈ doc.tokens.ids) (hlow : u.2.keyword.index < id.index)
    (hhigh : id.index ≤ (cut u.2).last.index) (own : Spelling) :
    (final doc types id).spelling own = [] := by
  have hfound := h.found u hu
  -- new text is put before constructs and behind braces, and no cut goes over those
  have hlead : (final doc types id).lead = [] := by
    by_contra hne
    obtain ⟨construct, hscope, hstarts⟩ := h.led id hid hne
    exact Lowering.scope_uncut h.loaded hfound hscope hstarts hlow hhigh
  have htrail : (final doc types id).trail = [] := by
    by_contra hne
    obtain ⟨function, body, hbody, hstarts⟩ := h.trailed id hid hne
    exact Lowering.start_uncut h.loaded hfound hbody hstarts ⟨Nat.le_of_lt hlow, hhigh⟩
  have hcore : (final doc types id).core? = some [] := by
    rcases h.core?_cases id with ⟨-, hout⟩ | ⟨v, hv, rfl, -⟩ | ⟨hgone, -⟩
    · exact absurd ⟨Nat.le_of_lt hlow, hhigh⟩ (hout u hu)
    · have hsame := h.apart u hu v hv
        ((mem_cut_iff h.loaded hfound _).mpr ⟨Nat.le_of_lt hlow, hhigh⟩)
      rw [hsame] at hlow
      exact absurd hlow (Nat.lt_irrefl _)
    · exact hgone
  unfold Weft.spelling
  rw [hlead, htrail, hcore]
  rfl

/-- **What some tokens have become** begins as they did, if no line leads the first of them and
    it is not gone. -/
theorem alike (h : Done doc types) (hids : doc.tokens.ids = a ++ b)
    (hlead : ∀ id ∈ b.head?, (final doc types id).lead = [])
    (hstands : ∀ id ∈ b.head?, ∀ u ∈ uses types,
      ¬ (u.2.keyword.index < id.index ∧ id.index ≤ (cut u.2).last.index)) :
    Alike (Text.bytes (doc.tokens.spells b).text) (Text.bytes (woven doc types b).text) := by
  cases b with
  | nil => exact .nil
  | cons id b =>
    have hid : id ∈ doc.tokens.ids := by simp [hids]
    obtain ⟨token, htoken, -⟩ := h.loaded.threaded.get?_of_mem hid
    rw [woven_cons, hlead id rfl, List.nil_append, TokenList.spells_cons htoken,
      Spelling.text_cons, Spelling.text_append, Text.bytes_append, Text.bytes_append]
    -- the first token stands for itself, or is a keyword, for which a name is put in place
    rcases h.core?_cases id with ⟨hself, -⟩ | ⟨u, hu, rfl, hcore⟩ | ⟨-, u, hu, hin⟩
    · obtain ⟨tag, hformed, hstops, -⟩ := TokenList.heads_of_reads h.reads hids htoken
      rw [show (final doc types id).core? = none from hself, Option.getD_none,
        TokenList.spells_cons htoken, Spelling.text_cons,
        show Spelling.text (doc.tokens.spells []) = "" from rfl, String.append_empty]
      exact .lexeme hformed hstops
    · have hkind := (h.worded u hu).keyword
      obtain ⟨c, body, hbytes, hc⟩ := (TokenList.isName_of_symbol h.reads hid hkind).head
      obtain ⟨d, more, hnew, hd⟩ := (h.legible.replacement_cases hu (h.found u hu)).1
      rw [show (final doc types u.2.keyword).core? = _ from hcore, Option.getD_some, hnew]
      rw [TokenList.textOf_of_get? htoken] at hbytes
      rw [hbytes]
      exact .ident hc hd
    · exact absurd hin (hstands id rfl u hu)

/-- A significant token does not begin with a line feed. -/
theorem head_ne_lf (h : Done doc types) (hids : doc.tokens.ids = a ++ id :: b)
    (htoken : doc.tokens.get? id = some token) (hsig : doc.tokens.isSignificant id = true) :
    ∃ c body, Text.bytes token.text = c :: body ∧ c ≠ Lexeme.lf := by
  obtain ⟨tag, hformed, -, htag⟩ := TokenList.heads_of_reads h.reads hids htoken
  obtain ⟨c, body, hbytes⟩ := List.exists_cons_of_ne_nil hformed.ne_nil
  refine ⟨c, body, hbytes, ?_⟩
  rintro rfl
  rw [hbytes] at hformed
  rw [hformed.of_lf] at htag
  rw [TokenList.isSignificant_of_get? htoken, ← Option.some.inj htag] at hsig
  exact Bool.noConfusion hsig

/-- The token right before lines at file scope. -/
theorem kind_before (h : Done doc types) {next : TokenId}
    (hids : doc.tokens.ids = a ++ id :: next :: b) (hlead : (final doc types next).lead ≠ []) :
    doc.tokens.isSignificant next = true ∧ ∃ kind, doc.tokens.kind? id = some kind
      ∧ (kind.isTrivia = true ∨ kind ∈ [.semicolon, .rbrace, .lbrace]) := by
  obtain ⟨config, source, hload⟩ := h.load
  obtain ⟨construct, hscope, hstarts⟩ := h.led next (by simp [hids]) hlead
  obtain ⟨hbelow, hne⟩ := h.loaded.below_of_atScope hscope
  exact ⟨(h.loaded.starts hbelow hne hstarts).2.1,
    Document.before_scope hload hids hscope hstarts⟩

/-- A token is read before the lines that are put behind it. -/
theorem heads_opening (h : Done doc types) {next : TokenId}
    (hids : doc.tokens.ids = a ++ id :: next :: b) (htoken : doc.tokens.get? id = some token)
    (hlead : (final doc types next).lead ≠ []) :
    token.kind.Heads token.text (Text.bytes (woven doc types (next :: b)).text) := by
  have hfile : doc.tokens.ids = (a ++ [id]) ++ next :: b := by simp [hids]
  obtain ⟨hsig, kind, hkind, hbefore⟩ := h.kind_before hids hlead
  rw [TokenList.kind?_of_get? htoken] at hkind
  obtain rfl := Option.some.inj hkind
  obtain ⟨after, hafter, -⟩ := h.loaded.threaded.get?_of_mem
    (show next ∈ doc.tokens.ids by simp [hids])
  obtain ⟨c, body, hbytes, hc⟩ := h.head_ne_lf hfile hafter hsig
  obtain ⟨d, line, hline, hd⟩ := (h.legible.lead next).begins hlead
  have hheads := TokenList.heads_of_reads h.reads hids htoken
  rw [TokenList.spells_cons hafter, Spelling.text_cons, Text.bytes_append, hbytes] at hheads
  rw [woven_cons, Spelling.text_append, Text.bytes_append,
    show Text.bytes (final doc types next).lead.text = _ from hline]
  exact hheads.opening hc hbefore hd

/-- **A token that was left alone** is read as before. -/
theorem heads_self (h : Done doc types) (hids : doc.tokens.ids = a ++ id :: b)
    (htoken : doc.tokens.get? id = some token) (hself : core? doc (uses types) id = none) :
    token.kind.Heads token.text (Text.bytes (final doc types id).trail.text
      ++ Text.bytes (woven doc types b).text) := by
  have hheads := TokenList.heads_of_reads h.reads hids htoken
  by_cases htrail : (final doc types id).trail = []
  · rw [htrail, show Text.bytes (Spelling.text []) = [] from rfl, List.nil_append]
    have hfile : doc.tokens.ids = (a ++ [id]) ++ b := by simp [hids]
    by_cases hlead : ∀ next ∈ b.head?, (final doc types next).lead = []
    · -- what comes next is not gone, since this token would be gone as well
      have hout := (core?_none h.loaded h.found id).mp hself
      refine hheads.alike (h.alike hfile hlead fun next hnext u hu hin => hout u hu ?_)
      obtain ⟨more, rfl⟩ := List.head?_eq_some_iff.mp hnext
      have hnear := h.loaded.unedited.index_eq hids
      have hfar := h.loaded.unedited.index_eq hfile
      simp only [List.length_append, List.length_singleton] at hfar
      omega
    · push Not at hlead
      obtain ⟨next, hnext, hlead⟩ := hlead
      obtain ⟨more, rfl⟩ := List.head?_eq_some_iff.mp hnext
      exact h.heads_opening hids htoken hlead
  -- bindings follow the brace of a body, and begin with a break
  · obtain ⟨c, more, hbytes, hc⟩ := (h.legible.trail id).begins htrail
    obtain ⟨function, body, hbody, hstarts⟩ := h.trailed id (by simp [hids]) htrail
    have hplain := h.loaded.plain_body hbody
    obtain ⟨-, hsig, -⟩ := h.loaded.starts hplain.below hplain.ne_root hstarts
    rw [TokenList.isSignificant_of_get? htoken, Bool.not_eq_true'] at hsig
    rw [show Text.bytes (final doc types id).trail.text = c :: more from hbytes]
    exact hheads.break hsig hc

/-- What stands directly behind the tokens of a use is not one that a use takes behind its
    keyword. -/
theorem not_within_behind (h : Done doc types) {u v : Declared × Occurrence}
    (hu : u ∈ uses types) (hv : v ∈ uses types) {next : TokenId}
    (hnext : next.index = (cut u.2).last.index + 1) :
    ¬ (v.2.keyword.index < next.index ∧ next.index ≤ (cut v.2).last.index) := by
  rintro ⟨hlow, hhigh⟩
  have hfound := h.found u hu
  have hforward := cut_forward h.loaded hfound
  -- two uses that share a token are one
  rcases Nat.lt_or_ge v.2.keyword.index u.2.keyword.index with hlt | hge
  · have hsame := h.apart v hv u hu
      ((mem_cut_iff h.loaded (h.found v hv) _).mpr ⟨Nat.le_of_lt hlt, by omega⟩)
    rw [hsame] at hlt
    exact absurd hlt (Nat.lt_irrefl _)
  · have hsame := h.apart u hu v hv ((mem_cut_iff h.loaded hfound _).mpr ⟨hge, by omega⟩)
    rw [hsame] at hhigh
    omega

/-- **What stands behind a use**: its tokens spell nothing more, and what comes next begins as it
    did. -/
theorem behind_named (h : Done doc types) {u : Declared × Occurrence} (hu : u ∈ uses types)
    (hcut : cut u.2 = ⟨u.2.keyword, u.2.stop⟩) (hids : doc.tokens.ids = a ++ u.2.keyword :: b) :
    ∃ before after, doc.tokens.ids = before ++ u.2.stop :: after
      ∧ woven doc types b = woven doc types after
      ∧ Alike (Text.bytes (doc.tokens.spells after).text)
        (Text.bytes (woven doc types after).text) := by
  have hfound := h.found u hu
  have hlast := (cut_between h.loaded hfound).2.1
  have hle : (cut u.2).first.index ≤ (cut u.2).last.index := by
    rw [cut_first]
    exact cut_forward h.loaded hfound
  obtain ⟨before, after, hfile, hends, hmem⟩ := h.loaded.unedited.range_eq hlast hle
  rw [hcut] at hfile hends hmem
  obtain ⟨rest, hrest⟩ := List.head?_eq_some_iff.mp hends.1
  obtain ⟨front, hfront⟩ := List.getLast?_eq_some_iff.mp hends.2
  dsimp only at hmem hrest hfront
  have hstop : doc.tokens.ids = (before ++ front) ++ u.2.stop :: after := by
    rw [hfile, hfront]
    simp
  have hsplit : doc.tokens.ids = before ++ u.2.keyword :: (rest ++ after) := by
    rw [hfile, hrest]
    simp
  have hnodup := h.loaded.threaded.nodup
  obtain ⟨-, rfl⟩ := append_cons_unique (hids ▸ hnodup) (hids.symm.trans hsplit)
  -- the handles behind the keyword are larger
  have hbehind : ∀ x ∈ rest, u.2.keyword.index < x.index ∧ x.index ≤ u.2.stop.index := by
    intro x hx
    have hbetween := (hmem x).mp (by rw [hrest]; exact List.mem_cons_of_mem _ hx)
    have hpair := h.loaded.unedited.pairwise_index
    rw [hsplit] at hpair
    exact ⟨(List.pairwise_cons.mp (List.pairwise_append.mp hpair).2.1).1 x
      (List.mem_append_left _ hx), hbetween.2⟩
  refine ⟨before ++ front, after, hstop, ?_, ?_⟩
  · have hgone : woven doc types rest = [] := by
      unfold woven
      rw [List.flatMap_eq_nil_iff]
      intro x hx
      have hin := hbehind x hx
      exact h.spelling_inside hu (by simp [hsplit, hx]) hin.1 (by rw [hcut]; exact hin.2) _
    unfold woven at hgone ⊢
    rw [List.flatMap_append, hgone, List.nil_append]
  · refine h.alike (a := before ++ front ++ [u.2.stop]) (by simp [hstop]) ?_ ?_
    · intro next hnext
      obtain ⟨more, rfl⟩ := List.head?_eq_some_iff.mp hnext
      by_contra hlead
      -- a type does not end where a construct may begin
      obtain ⟨-, kind, hkind, hbefore⟩ := h.kind_before hstop hlead
      rcases (h.worded u hu).stop with he | hgreater
      · rw [he, (h.worded u hu).keyword] at hkind
        obtain rfl := Option.some.inj hkind
        simp [TokenKind.isTrivia] at hbefore
      · rw [hgreater] at hkind
        obtain rfl := Option.some.inj hkind
        simp [TokenKind.isTrivia] at hbefore
    · intro next hnext v hv
      obtain ⟨more, rfl⟩ := List.head?_eq_some_iff.mp hnext
      have hnear := h.loaded.unedited.index_eq hstop
      have hfar := h.loaded.unedited.index_eq (a := before ++ front ++ [u.2.stop])
        (show doc.tokens.ids = _ ++ next :: more by simp [hstop])
      refine h.not_within_behind hu hv ?_
      simp only [List.length_append, List.length_singleton] at hnear hfar
      rw [hcut, hfar, hnear]

/-- **The name of a type** is read if no word follows directly, and only then. -/
theorem reads_named (h : Done doc types) {u : Declared × Occurrence} (hu : u ∈ uses types)
    (hnamed : u.2.isNamed = true) (hids : doc.tokens.ids = a ++ u.2.keyword :: b) :
    (replacement doc u.1 u.2).Reads (Text.bytes (final doc types u.2.keyword).trail.text
      ++ Text.bytes (woven doc types b).text) ↔ u.2.runsOn doc = false := by
  have hfound := h.found u hu
  obtain ⟨-, ⟨hcall, -⟩ | ⟨-, hname, hcut⟩⟩ := h.legible.replacement_cases hu hfound
  · rw [hnamed] at hcall
    exact Bool.noConfusion hcall
  obtain ⟨before, after, hstop, hwoven, halike⟩ := h.behind_named hu hcut hids
  have htrail : (final doc types u.2.keyword).trail = [] := by
    by_contra hne
    obtain ⟨function, body, hbody, hstarts⟩ := h.trailed _ (by simp [hids]) hne
    exact Lowering.start_uncut h.loaded hfound hbody hstarts
      ⟨Nat.le_refl _, cut_forward h.loaded hfound⟩
  -- the name is all that is written, so it reads as long as it does not run on
  have hreads : (replacement doc u.1 u.2).Reads (Text.bytes (final doc types u.2.keyword).trail.text
      ++ Text.bytes (woven doc types b).text)
        ↔ TokenKind.symbol.Heads u.1.name (Text.bytes (woven doc types after).text) := by
    rw [hname, htrail, hwoven, Spelling.reads_cons]
    exact and_iff_left trivial
  rw [hreads, (h.legible.worded _ (Lowering.mem_uses.mp hu).1).name.heads_iff, halike.identPart]
  unfold Occurrence.runsOn
  rw [hnamed, Bool.true_and, h.loaded.threaded.next?_eq hstop]
  cases after with
  | nil => simp [TokenList.spells, Spelling.text, Text.bytes_empty]
  | cons next more =>
    obtain ⟨token, htoken, -⟩ := h.loaded.threaded.get?_of_mem
      (show next ∈ doc.tokens.ids by simp [hstop])
    have hfile : doc.tokens.ids = (before ++ [u.2.stop]) ++ next :: more := by simp [hstop]
    obtain ⟨tag, hformed, -⟩ := TokenList.heads_of_reads h.reads hfile htoken
    obtain ⟨c, body, hbytes⟩ := List.exists_cons_of_ne_nil hformed.ne_nil
    rw [TokenList.spells_cons htoken, Spelling.text_cons, Text.bytes_append, List.head?_cons,
      Option.any_some, TokenList.textOf_of_get? htoken, hbytes]
    simp

/-- What leads a token and what follows it are read in any case. -/
theorem reads_spelling (h : Done doc types) (id : TokenId) (own : Spelling) (rest : List UInt8) :
    ((final doc types id).spelling own).Reads rest
      ↔ ((final doc types id).core?.getD own).Reads
        (Text.bytes (final doc types id).trail.text ++ rest) := by
  unfold Weft.spelling
  rw [Spelling.reads_append, Spelling.reads_append]
  exact ⟨fun hreads => hreads.1.2,
    fun hreads => ⟨⟨(h.legible.lead id).firm _, hreads⟩, (h.legible.trail id).firm _⟩⟩

/-- **The prepared file is read back** exactly when no use runs on. -/
theorem reads_iff (h : Done doc types) :
    (woven doc types doc.tokens.ids).Reads []
      ↔ ∀ u ∈ uses types, u.2.runsOn doc = false := by
  -- a file reads if each of its tokens does in front of what follows
  have htokens : (woven doc types doc.tokens.ids).Reads []
      ↔ ∀ a id b, doc.tokens.ids = a ++ id :: b →
        ((final doc types id).core?.getD (doc.tokens.spells [id])).Reads
          (Text.bytes (final doc types id).trail.text ++ Text.bytes (woven doc types b).text) := by
    simp only [← h.reads_spelling]
    unfold woven
    rw [Spelling.reads_flatMap]
    simp only [List.append_nil]
  rw [htokens]
  constructor
  · intro hreads u hu
    cases hnamed : u.2.isNamed with
    | false =>
      unfold Occurrence.runsOn
      rw [hnamed, Bool.false_and]
    | true =>
      obtain ⟨a, b, hids⟩ := List.append_of_mem (cut_between h.loaded (h.found u hu)).1.1
      have hcore := hreads a _ b hids
      obtain ⟨v, hv, hsame, hword⟩ := h.core?_keyword hu
      rw [show (final doc types u.2.keyword).core? = _ from hword, Option.getD_some] at hcore
      rw [← hsame] at hcore hids hnamed ⊢
      exact (h.reads_named hv hnamed hids).mp hcore
  · intro hnone a id b hids
    rcases h.core?_cases id with ⟨hself, -⟩ | ⟨u, hu, rfl, hword⟩ | ⟨hgone, -⟩
    · obtain ⟨token, htoken, -⟩ := h.loaded.threaded.get?_of_mem
        (show id ∈ doc.tokens.ids by simp [hids])
      rw [show (final doc types id).core? = none from hself, Option.getD_none,
        TokenList.spells_cons htoken]
      exact ⟨h.heads_self hids htoken hself, trivial⟩
    · rw [show (final doc types u.2.keyword).core? = _ from hword, Option.getD_some]
      obtain ⟨-, ⟨-, hfirm⟩ | ⟨hnamed, -⟩⟩ := h.legible.replacement_cases hu (h.found u hu)
      · exact hfirm _
      · exact (h.reads_named hu hnamed hids).mpr (hnone u hu)
    · rw [show (final doc types id).core? = some [] from hgone]
      trivial

end Done

end Weave

/-! ## §3. A session -/

/-- **A document on which lowering went through** behind the header has all its uses done. -/
theorem Lowering.run_done [ContentHash] {config : Config} {source : String} {doc doc₁ : Document}
    {state : Lowering} {pre : List Spelling} (hload : Document.load config source = .ok doc)
    (hheader : config.prologue? = none)
    (h : Fabric doc doc₁ (Weave.weft doc (Weave.includeLine doc) [] []) [] pre)
    (hdiscover : Occurrence.discover doc₁ = Occurrence.discover doc)
    (hrun : run doc₁ = (.ok (), state)) :
    ∃ found types, Occurrence.findAll doc = .ok found
      ∧ types = Weave.declareAll doc (Occurrence.groupAll doc.tokens found)
      ∧ types.map (·.refs) = Occurrence.groupAll doc.tokens found
      ∧ ((Weave.uses types).map (·.2)).Perm found ∧ Weave.Done doc types
      ∧ state.document.tokens.spells state.document.tokens.ids
        = Weave.woven doc types doc.tokens.ids := by
  have h₀ := Document.load_loaded hload
  obtain ⟨groups, hgroups, hrefs, hapart, hstage⟩ := run_stage h₀ h hdiscover hrun
  obtain ⟨found, hfound, rfl⟩ := Occurrence.discover_ok hgroups
  have hperm := uses_perm hrefs
  have hmem : ∀ u ∈ Weave.uses (Weave.declareAll doc (Occurrence.groupAll doc.tokens found)),
      u.2 ∈ found := fun u hu => hperm.subset (List.mem_map_of_mem hu)
  obtain ⟨strand, hwoven, -⟩ := hstage.fabric
  refine ⟨found, _, hfound, rfl, hrefs, hperm, ⟨⟨config, source, hload⟩,
    Document.load_legible hload hheader hfound rfl hrefs, ?_, ?_, ?_, ?_, ?_⟩, hwoven.spells_eq⟩
  · exact fun u hu => (Occurrence.findAll_ok hfound).1 _ (hmem u hu)
  · exact fun u hu => Occurrence.findAll_worded hfound (hmem u hu)
  -- no use is inside of another, or else the run would have stopped
  · intro u hu v hv hin
    by_contra hne
    exact (apart_iff h₀ hfound hperm (uses_sorted _)).mp hapart
      ⟨u.2, hmem u hu, v.2, hmem v hv, hne, hin⟩
  · intro id hid hne
    refine hwoven.led id hid fun hnil => hne ?_
    have hlead := (hwoven.reads id hid).lead
    rw [hnil] at hlead
    exact hlead.symm
  · intro id hid hne
    refine hwoven.trailed id hid fun hnil => hne ?_
    have htrail := (hwoven.reads id hid).trail
    rw [hnil] at htrail
    exact htrail.symm

section Apply

variable {σ : Type} {disk : Disk (StateM σ)} {s s' : σ}

/-- **A prepared file is read back** as the tokens it was written from, exactly when no use that
    becomes a name has a word right behind it. -/
theorem Session.apply_readsBack [ContentHash] {config : Config} {source : String}
    {session session' : Session}
    (hheader : config.prologue? = none) (hload : Session.load config source = .ok session)
    (happly : (Session.apply disk .builtin session).run s = ((.ok (), session'), s')) :
    ∃ found, Occurrence.findAll session.document = .ok found
      ∧ (session'.document.ReadsBack
        ↔ ∀ use ∈ found, use.runsOn session.document = false) := by
  obtain ⟨doc, hdoc, hsession⟩ := Step.except_bind_ok.mp hload
  obtain rfl := Except.ok.inj hsession
  have h₀ := Document.load_loaded hdoc
  have hout := (Session.apply_run disk Registry.builtin { document := doc } s).symm.trans happly
  have hpasses : (Session.runPasses disk
      [Prologue.pass doc.config, Texture.pass doc.config] doc).run s
        = ((.ok (), session'.document), s') :=
    Prod.ext (Prod.ext (congrArg (·.1.1) hout) (congrArg (·.1.2.document) hout))
      (congrArg (·.2) hout)
  -- the two passes of the registry, one after the other
  obtain ⟨header?, doc₁, t₁, hfirst, hpasses⟩ := Session.runPasses_cons hpasses
  obtain ⟨table?, doc₂, t₂, hsecond, hpasses⟩ := Session.runPasses_cons hpasses
  obtain rfl : doc₂ = session'.document := congrArg (·.1.2) hpasses
  obtain ⟨doc₁', hinsert, hfabric, hdiscover⟩ := Prologue.insert_ok h₀
  rw [Prologue.pass_run hinsert rfl] at hfirst
  obtain ⟨-, rfl⟩ := EStateM.Result.ok.inj hfirst
  obtain ⟨state, hrun, hdone⟩ := Texture.pass_run hsecond
  obtain ⟨found, types, hfound, -, -, hperm, hall, hspells⟩ :=
    Lowering.run_done hdoc hheader hfabric hdiscover hrun
  refine ⟨found, hfound, ?_⟩
  rw [Document.readsBack_iff, ← hdone, hspells, hall.reads_iff]
  constructor
  · intro hnone use huse
    obtain ⟨u, hu, rfl⟩ := List.mem_map.mp (hperm.mem_iff.mpr huse)
    exact hnone u hu
  · intro hnone u hu
    exact hnone u.2 (hperm.subset (List.mem_map_of_mem hu))

end Apply

/-- With a blank behind the type the file is read back.  Without one the name of the type and
    the name of the variable are read as one word. -/
theorem Session.apply_readsBack_blank :
    ∃ disk : Disk (StateM Unit),
      (∃ session session', Session.load {} "Texture2Du<float> x;" = .ok session
        ∧ (Session.apply disk .builtin session).run () = ((.ok (), session'), ())
        ∧ session'.document.ReadsBack)
      ∧ ∃ session session', Session.load {} "Texture2Du<float>x;" = .ok session
        ∧ (Session.apply disk .builtin session).run () = ((.ok (), session'), ())
        ∧ ¬ session'.document.ReadsBack := by
  let disk : Disk (StateM Unit) :=
    ⟨fun _ => pure (.error .notFound), fun _ _ => pure (.ok ())⟩
  -- a run that goes through, with the verdict on its uses
  have hcase : ∀ (source : String) (verdict : Bool),
      ((Session.load {} source).toOption.bind fun session =>
        (Occurrence.findAll session.document).toOption.map fun found =>
          (((Session.apply disk .builtin session).run ()).1.1.isOk,
            found.all fun use => !use.runsOn session.document)) = some (true, verdict) →
      ∃ session session', Session.load {} source = .ok session
        ∧ (Session.apply disk .builtin session).run () = ((.ok (), session'), ())
        ∧ (session'.document.ReadsBack ↔ verdict = true) := by
    intro source verdict heval
    cases hload : Session.load {} source with
    | error error => simp [hload, Except.toOption] at heval
    | ok session =>
      rw [hload] at heval
      obtain ⟨found, hfound, hverdict⟩ := Option.map_eq_some_iff.mp heval
      obtain ⟨hok, hall⟩ := Prod.mk.inj hverdict
      cases happly : (Session.apply disk .builtin session).run () with
      | mk outcome t =>
        obtain ⟨result, session'⟩ := outcome
        rw [happly] at hok
        cases result with
        | error error => simp [Except.isOk, Except.toBool] at hok
        | ok u =>
          obtain ⟨found', hfound', hiff⟩ := Session.apply_readsBack rfl hload happly
          rw [hfound'] at hfound
          obtain rfl : found' = found := Option.some.inj hfound
          refine ⟨session, session', rfl, happly, ?_⟩
          rw [hiff, ← hall, List.all_eq_true]
          simp
  refine ⟨disk, ?_, ?_⟩
  · obtain ⟨session, session', hload, happly, hiff⟩ :=
      hcase "Texture2Du<float> x;" true (by decide +kernel)
    exact ⟨session, session', hload, happly, hiff.mpr rfl⟩
  · obtain ⟨session, session', hload, happly, hiff⟩ :=
      hcase "Texture2Du<float>x;" false (by decide +kernel)
    exact ⟨session, session', hload, happly, fun hreads => Bool.noConfusion (hiff.mp hreads)⟩

end KernelPrep
