/-
  KernelPrep.Proofs.Texture.Wording — the words of what lowering puts into a file.

  The words of new text come from three places: the vocabulary of the platform, names made by
  counting, and symbols of the file itself.  All of them are read as one word, so the lines
  made of them are read as they were spelled, whatever follows them.

  Main definitions:
    * `Occurrence.Worded` — the words of a use are words of the file.

  Main statements:
    * `Occurrence.findAll_worded` — the words of all uses;
    * `Weave.includeLine_firm`, `Weave.typeLine_firm`, `Weave.globalLine_firm`,
      `Weave.bindLine_firm` — the lines of new text;
    * `Weave.replacement_firm` — the macro of a kernel parameter;
    * `Document.load_legible`  — all that is put into a loaded file.
-/
import KernelPrep.Proofs.Texture.Outcome
import KernelPrep.Proofs.Texture.Recorded
import KernelPrep.Proofs.Token.Pieces

namespace KernelPrep

open Lexeme (isIdentPart isIdentStart isBreak)
open Step (except_bind_ok)
open Weave (Declared)

/-! ## §1. The tokens of a file as words -/

namespace TokenList

variable {list : TokenList} {id : TokenId}

/-- Every token of a file that is read stands before the text of those behind it. -/
theorem heads_of_reads (h : (list.spells list.ids).Reads []) {a b : List TokenId}
    (hids : list.ids = a ++ id :: b) {token : Token} (htoken : list.get? id = some token) :
    token.kind.Heads token.text (Text.bytes (list.spells b).text) := by
  rw [hids, spells_append, spells_cons htoken] at h
  simpa using h.heads

theorem get?_of_kind? {kind : TokenKind} (h : list.kind? id = some kind) :
    ∃ token, list.get? id = some token ∧ token.kind = kind ∧ token.text = list.textOf id := by
  obtain ⟨token, htoken, hkind⟩ := Option.map_eq_some_iff.mp h
  exact ⟨token, htoken, hkind, (textOf_of_get? htoken).symm⟩

/-- **A symbol of a file** is a name. -/
theorem isName_of_symbol (h : (list.spells list.ids).Reads []) (hid : id ∈ list.ids)
    (hkind : list.kind? id = some .symbol) : Text.IsName (list.textOf id) := by
  obtain ⟨token, htoken, hsymbol, htext⟩ := get?_of_kind? hkind
  obtain ⟨a, b, hids⟩ := List.append_of_mem hid
  obtain ⟨tag, hformed, -, htag⟩ := heads_of_reads h hids htoken
  rw [hsymbol] at htag
  rw [← htext]
  rcases TokenKind.tag_of_kind htag (by decide) with ⟨rfl, hword⟩ | hother
  · rcases TokenKind.keyword?_getD token.text with ⟨hplain, -⟩ | hkeyword
    · exact ⟨hformed, hplain⟩
    · simp [← hword] at hkeyword
  · simp at hother

/-- **The line ending of a file** is read as one. -/
theorem newline_formed (h : (list.spells list.ids).Reads []) :
    Lexeme.Formed .newline (Text.bytes list.newline) := by
  unfold newline
  split
  · rename_i id hfind
    have hkind : list.kind? id = some .eol := by simpa using List.find?_some hfind
    obtain ⟨token, htoken, heol, htext⟩ := get?_of_kind? hkind
    obtain ⟨a, b, hids⟩ := List.append_of_mem (List.mem_of_find?_eq_some hfind)
    obtain ⟨tag, hformed, -, htag⟩ := heads_of_reads h hids htoken
    rw [heol] at htag
    obtain rfl := TokenKind.tag_of_eol htag
    rw [← htext]
    exact hformed
  · exact .lineFeed

end TokenList

/-! ## §2. The words of uses -/

/-- The text is that of a symbol of the file. -/
def Document.HasSymbol (doc : Document) (text : String) : Prop :=
  ∃ id, doc.tokens.kind? id = some .symbol ∧ doc.tokens.textOf id = text

/-- The symbol that is found before a token is one. -/
theorem Outline.symbolBefore?_kind {list : TokenList} {start name : TokenId} {fuel : Nat}
    {id? : Option TokenId} (h : symbolBefore? list start fuel id? = some name) :
    list.kind? name = some .symbol := by
  induction fuel generalizing id? with
  | zero => simp [symbolBefore?] at h
  | succ fuel ih =>
    cases id? with
    | none => simp [symbolBefore?] at h
    | some id =>
      rw [symbolBefore?] at h
      split at h
      · rename_i hkind
        rwa [← Option.some.inj h]
      · split at h
        · simp at h
        · exact ih h

/-- What names a function is a symbol. -/
theorem Outline.functionName?_kind {list : TokenList} {tree : NodeTree} {function : NodeId}
    {name : TokenId} (h : functionName? list tree function = some name) :
    list.kind? name = some .symbol := by
  unfold functionName? at h
  obtain ⟨_, _, h⟩ := Option.bind_eq_some_iff.mp h
  obtain ⟨_, _, h⟩ := Option.bind_eq_some_iff.mp h
  obtain ⟨_, _, h⟩ := Option.bind_eq_some_iff.mp h
  exact symbolBefore?_kind h

namespace Occurrence

variable {doc : Document} {node : NodeId} {isParams : Bool}

/-- The words of a use are words of the file, and its type ends with the keyword or a `>`. -/
structure Worded (doc : Document) (o : Occurrence) : Prop where
  keyword : doc.tokens.kind? o.keyword = some .symbol
  texel : ∀ id ∈ o.texel, doc.tokens.kind? id = some .symbol
  typed : ∀ signature, Signature.ofKeyword? (doc.tokens.textOf o.keyword) = some signature →
    signature.kind = .texture → o.texel ≠ []
  stop : o.stop = o.keyword ∨ doc.tokens.kind? o.stop = some .greater
  param : ∀ param, o.param? = some param → doc.HasSymbol param.text
  function : ∀ function name definition, o.context = .kernelParam function name definition →
    doc.HasSymbol name

/-- Every use was read at a keyword. -/
theorem scanFrom_read {entries : List (TokenId × Token)} {skip : Nat} {found : List Occurrence}
    (h : scanFrom doc node isParams skip entries = .ok found) {o : Occurrence} (ho : o ∈ found) :
    ∃ id token rest signature n, (id, token) :: rest <:+ entries
      ∧ signature? token = some signature
      ∧ read doc node isParams signature.kind id token rest = .ok (o, n) := by
  induction entries generalizing skip found with
  | nil =>
    have hnil : found = [] := by
      cases skip <;> exact (Except.ok.inj h).symm
    simp [hnil] at ho
  | cons entry rest ih =>
    -- the scan behind the entry is of a shorter suffix, which is one of the whole as well
    have hbehind : ∀ {skip found}, scanFrom doc node isParams skip rest = .ok found → o ∈ found →
        ∃ id token rest' signature n, (id, token) :: rest' <:+ entry :: rest
          ∧ signature? token = some signature
          ∧ read doc node isParams signature.kind id token rest' = .ok (o, n) := by
      intro skip found hscan ho
      obtain ⟨id, token, rest', signature, n, hsuffix, hread⟩ := ih hscan ho
      exact ⟨id, token, rest', signature, n, hsuffix.trans (List.suffix_cons _ _), hread⟩
    obtain ⟨id, token⟩ := entry
    cases skip with
    | succ skip => exact hbehind h ho
    | zero =>
      unfold scanFrom at h
      split at h
      · exact hbehind h ho
      · rename_i signature hsome
        obtain ⟨⟨o', n⟩, hread, h⟩ := except_bind_ok.mp h
        obtain ⟨os, hscan, h⟩ := except_bind_ok.mp h
        obtain rfl := Except.ok.inj h
        rcases List.mem_cons.mp ho with rfl | ho
        · exact ⟨id, token, rest, signature, n, List.suffix_refl _, hsome, hread⟩
        · exact hbehind hscan ho

/-- The name of a kernel is a symbol of the file. -/
theorem paramContext_name {function : NodeId} {name : String} {definition : Bool}
    (h : paramContext doc node = .ok (.kernelParam function name definition)) :
    doc.HasSymbol name := by
  unfold paramContext at h
  split at h
  · simp at h
  · split at h
    · split at h
      · rename_i id hname
        obtain ⟨-, rfl, -⟩ := Context.kernelParam.inj (Except.ok.inj h)
        exact ⟨id, Outline.functionName?_kind hname, rfl⟩
      · simp at h
    · simp at h

/-- **The words of a use** that was read at a keyword of the file. -/
theorem read_worded {signature : Signature} {id : TokenId} {keyword : Token}
    {rest : List (TokenId × Token)} {o : Occurrence} {n : Nat}
    (hentries : ∀ entry ∈ (id, keyword) :: rest, doc.tokens.get? entry.1 = some entry.2)
    (hsig : signature? keyword = some signature)
    (h : read doc node isParams signature.kind id keyword rest = .ok (o, n)) : Worded doc o := by
  have hkind := fun entry hentry => TokenList.kind?_of_get? (hentries entry hentry)
  have htext := fun entry hentry => TokenList.textOf_of_get? (hentries entry hentry)
  obtain ⟨hsymbol, hsignature⟩ : keyword.kind = .symbol
      ∧ Signature.ofKeyword? keyword.text = some signature := by
    unfold signature? at hsig
    split at hsig
    · exact ⟨‹_›, hsig⟩
    · simp at hsig
  have hself : doc.tokens.kind? id = some .symbol := by
    rw [hkind (id, keyword) List.mem_cons_self, hsymbol]
  obtain ⟨tail, -, htail, hplace⟩ := read_inv h
  -- a texel type is made of symbols and ends with a bracket; a surface has none
  obtain ⟨hstop, htexel, htyped⟩ : (tail.stop = id ∨ doc.tokens.kind? tail.stop = some .greater)
      ∧ (∀ x ∈ tail.texel, doc.tokens.kind? x = some .symbol)
      ∧ (signature.kind = .texture → tail.texel ≠ []) := by
    rcases htail with ⟨-, htexel⟩ | ⟨hsurface, rfl⟩
    · obtain ⟨angle, words, close, more, rfl, -, hne, hwords, hgreater, rfl⟩ := texelType_ok htexel
      refine ⟨Or.inr ?_, fun x hx => ?_, fun _ => by simpa using hne⟩
      · rw [← hgreater]
        exact hkind close (by simp)
      · obtain ⟨word, hword, rfl⟩ := List.mem_map.mp hx
        rw [hkind word (by simp [hword]), hwords word hword]
    · exact ⟨Or.inl rfl, by simp, by simp [hsurface]⟩
  have htyped : ∀ other, Signature.ofKeyword? (doc.tokens.textOf id) = some other →
      other.kind = .texture → tail.texel ≠ [] := by
    intro other hother
    rw [htext (id, keyword) List.mem_cons_self, hsignature] at hother
    rwa [← Option.some.inj hother]
  -- only in a parameter list are there a name and a context
  rcases hplace with rfl | ⟨-, param, context, hparam, hcontext, rfl⟩
  · exact ⟨hself, htexel, htyped, hstop, by simp, by simp⟩
  · obtain ⟨-, name, hname, hnamed, hword⟩ := paramName_ok hparam
    refine ⟨hself, htexel, htyped, hstop, ?_, ?_⟩
    · intro param' he
      obtain rfl := Option.some.inj he
      have hin := List.mem_cons_of_mem (id, keyword) (List.mem_of_mem_drop hname)
      exact ⟨name.1, by rw [hkind name hin, hnamed], by rw [htext name hin, hword]⟩
    · rintro function name definition rfl
      exact paramContext_name hcontext

/-- **The words of all uses** are words of the file. -/
theorem findAll_worded {found : List Occurrence} (h : findAll doc = .ok found) {o : Occurrence}
    (ho : o ∈ found) : Worded doc o := by
  unfold findAll at h
  obtain ⟨lists, hlists, h⟩ := except_bind_ok.mp h
  obtain rfl := Except.ok.inj h
  obtain ⟨list, hlist, ho⟩ := List.mem_flatten.mp ho
  obtain ⟨node, -, hscan⟩ := Step.mapM_ok hlists hlist
  obtain ⟨id, token, rest, signature, n, hsuffix, hsig, hread⟩ := scanFrom_read hscan ho
  refine read_worded (fun entry hentry => ?_) hsig hread
  exact (mem_entries.mp (hsuffix.subset hentry)).2

end Occurrence

/-! ## §3. New names -/

/-- **The words of a platform** are names. -/
theorem Platform.vocabulary_names (platform : Platform) (kind : TextureKind) (mode : ReadMode) :
    Text.IsName (platform.vocabulary.typeWord kind)
      ∧ Text.IsName (platform.vocabulary.paramWord kind mode)
      ∧ Text.IsName (platform.vocabulary.globalWord kind)
      ∧ Text.IsName (platform.vocabulary.bindWord kind)
      ∧ Text.IsName (platform.vocabulary.readMode mode) := by
  cases platform <;> cases kind <;> cases mode <;> decide

theorem TextureKind.stem_part (kind : TextureKind) :
    ∀ b ∈ Text.bytes kind.stem, isIdentPart b = true :=
  List.all_eq_true.mp (by cases kind <;> decide)

/-- Names that are made by counting. -/
theorem Weave.typeName_isName (kind : TextureKind) (n : Nat) :
    Text.IsName ("__" ++ kind.stem ++ "TypeName_" ++ toString n ++ "__") := by
  have hdigits : ∀ b ∈ Text.bytes (toString n), isIdentPart b = true := fun b hb =>
    Lexeme.isIdentPart_of_digit ((Text.isNumeral_toString n).digits b hb)
  have hword : ∀ b ∈ Text.bytes "TypeName_", isIdentPart b = true :=
    List.all_eq_true.mp (by decide)
  have hend : ∀ b ∈ Text.bytes "__", isIdentPart b = true := List.all_eq_true.mp (by decide)
  simp only [String.append_assoc]
  refine Text.isName_underscores fun b hb => ?_
  simp only [Text.bytes_append, List.mem_append] at hb
  rcases hb with hb | hb | hb | hb
  · exact kind.stem_part b hb
  · exact hword b hb
  · exact hdigits b hb
  · exact hend b hb

/-- Names that are made of two names. -/
theorem Lowering.globalName_isName (kind : TextureKind) {function param : String}
    (hfunction : Text.IsName function) (hparam : Text.IsName param) :
    Text.IsName (Lowering.globalName kind function param) := by
  have hword : ∀ b ∈ Text.bytes "Var_", isIdentPart b = true := List.all_eq_true.mp (by decide)
  have hend : ∀ b ∈ Text.bytes "_" ++ Text.bytes "__", isIdentPart b = true :=
    List.all_eq_true.mp (by decide)
  unfold Lowering.globalName
  simp only [String.append_assoc]
  refine Text.isName_underscores fun b hb => ?_
  simp only [Text.bytes_append, List.mem_append] at hb
  rcases hb with hb | hb | hb | hb | hb | hb
  · exact kind.stem_part b hb
  · exact hword b hb
  · exact hfunction.part b hb
  · exact hend b (List.mem_append_left _ hb)
  · exact hparam.part b hb
  · exact hend b (List.mem_append_right _ hb)

/-- The headers of the platforms stay within their quotes. -/
theorem Config.prologue_plain {config : Config} (hheader : config.prologue? = none) :
    ∀ b ∈ Text.bytes config.prologue,
      b ∉ [0x22, Lexeme.backslash, Lexeme.lf, Lexeme.cr] := by
  have hall : ((Text.bytes config.prologue).all fun b =>
      decide (b ∉ [0x22, Lexeme.backslash, Lexeme.lf, Lexeme.cr])) = true := by
    unfold Config.prologue
    rw [hheader, Option.getD_none]
    cases config.platform <;> decide
  exact fun b hb => of_decide_eq_true (List.all_eq_true.mp hall b hb)

/-! ## §4. New lines -/

namespace Weave

open Spelling (Firm Begins Block begins_cons)

variable {doc : Document} {type : Declared}

/-- The words of a type are words. -/
structure Declared.Worded (type : Declared) : Prop where
  name : Text.IsName type.name
  texel : type.signature.kind = .texture → Piece.IsArg type.texel

section Lines

variable (hnewline : Lexeme.Formed .newline (Text.bytes doc.newline))

include hnewline

theorem lineEnd_firm : Firm [(.semicolon, ";"), (.eol, doc.newline)] := fun _ =>
  ⟨TokenKind.heads_firm (by simp), TokenKind.heads_eol hnewline, trivial⟩

/-- **The inclusion of the platform header.** -/
theorem includeLine_firm (hheader : doc.config.prologue? = none) :
    Firm (spelled doc (Prologue.pieces doc.config.prologue))
      ∧ Begins (· == 0x23) (spelled doc (Prologue.pieces doc.config.prologue)) := by
  have hinclude : Text.IsName "include" := by decide
  obtain ⟨b, body, hbytes, hstart⟩ := hinclude.head
  refine ⟨fun rest => ?_, begins_cons (show Text.bytes "#" = [0x23] by decide) rfl⟩
  have hquote : Text.bytes ("\"" ++ doc.config.prologue ++ "\"")
      = 0x22 :: Text.bytes (doc.config.prologue ++ "\"") := by
    rw [String.append_assoc, Text.bytes_append]
    rfl
  -- from the end of the line to its start, each piece before the next
  have hstring : Spelling.Reads
      [(.string, "\"" ++ doc.config.prologue ++ "\""), (.eol, doc.newline)] rest :=
    ⟨TokenKind.heads_string (Config.prologue_plain hheader), TokenKind.heads_eol hnewline, trivial⟩
  have hspace : Spelling.Reads [(.whitespace, " "),
      (.string, "\"" ++ doc.config.prologue ++ "\""), (.eol, doc.newline)] rest := by
    refine (begins_cons (p := (· == 0x22)) hquote rfl).reads_cons (fun b more hb => ?_) hstring
    rw [beq_iff_eq] at hb
    subst hb
    exact TokenKind.heads_spaces Nat.one_pos (by decide) (by decide) (by decide)
  have hword := (Piece.name_held hinclude).append (begins_cons rfl (by decide)) hspace
  exact (begins_cons (p := isIdentStart) hbytes hstart).reads_cons
    (fun b more hb => TokenKind.heads_hash hb) hword

/-- **The declaration of a type.** -/
theorem typeLine_firm (h : type.Worded) :
    Firm (typeLine doc type) ∧ Begins isIdentStart (typeLine doc type) := by
  have htypedef : Text.bytes "typedef" = [0x74, 0x79, 0x70, 0x65, 0x64, 0x65, 0x66] := by
    decide
  obtain ⟨htype, -, -, -, hmode⟩ :=
    doc.config.platform.vocabulary_names type.signature.kind type.signature.mode
  have hdims : Piece.IsArg (toString type.signature.dims.toNat) :=
    Piece.isArg_of_word (Or.inr (Text.isNumeral_toString _))
  have hcall : Firm (Piece.spell doc.newline (.call (doc.config.vocabulary.typeWord
      type.signature.kind) (typeArgs doc type))) := by
    refine Piece.call_firm htype fun arg harg => ?_
    unfold typeArgs at harg
    split at harg
    · rename_i hkind
      simp only [List.mem_cons, List.not_mem_nil, or_false] at harg
      rcases harg with rfl | rfl | rfl
      · exact h.texel hkind
      · exact hdims
      · exact Piece.isArg_of_word (Or.inl hmode)
    · rw [List.mem_singleton.mp harg]
      exact hdims
  rw [typeLine_eq]
  refine ⟨fun rest => ?_, begins_cons htypedef rfl⟩
  -- read backwards: each piece is firm before what the later ones begin with
  have hname := (Piece.name_held h.name).append (Piece.begins_break (by simp))
    (lineEnd_firm hnewline rest)
  obtain ⟨b, body, hbytes, hstart⟩ := h.name.head
  have htail := Piece.reads_space (begins_cons hbytes (Lexeme.isIdentPart_of_start hstart)) hname
  have hline := Piece.reads_space
    (((Piece.begins_call htype).append _).mono fun _ => Lexeme.isIdentPart_of_start)
    (Spelling.reads_append.mpr ⟨hcall _, htail⟩)
  refine (begins_cons (p := isBreak) rfl rfl).reads_cons (fun b more hb => ?_) hline
  refine ⟨.ident, ?_, Lexeme.stops_break (by simp) (by simp) hb, rfl⟩
  show Lexeme.Formed .ident (Text.bytes "typedef")
  rw [htypedef]
  exact .ident (by decide) (List.all_iff_forall_prop.mp (by decide))

/-- **The variable for a kernel parameter.** -/
theorem globalLine_firm (h : type.Worded) {node : NodeId} {function param : String}
    (hfunction : Text.IsName function) (hparam : Text.IsName param) :
    Firm (globalLine doc type node function param)
      ∧ Begins isIdentStart (globalLine doc type node function param) := by
  obtain ⟨-, -, hglobal, -⟩ := doc.config.platform.vocabulary_names type.signature.kind .raw
  refine ⟨(Piece.call_firm hglobal fun arg harg => ?_).append (lineEnd_firm hnewline),
    (Piece.begins_call hglobal).append _⟩
  simp only [List.mem_cons, List.not_mem_nil, or_false] at harg
  rcases harg with rfl | rfl
  · exact Piece.isArg_of_word (Or.inl h.name)
  · exact Piece.isArg_of_word (Or.inl (Lowering.globalName_isName _ hfunction hparam))

/-- **The binding of a kernel parameter.** -/
theorem bindLine_firm (h : type.Worded) {function body : NodeId} {name param : String}
    (hname : Text.IsName name) (hparam : Text.IsName param)
    (hbody : Outline.functionBody? doc.tree function = some body)
    (hindent : 0 < Lowering.bodyIndent doc body) :
    Firm (bindLine doc type function name param)
      ∧ Begins isBreak (bindLine doc type function name param) := by
  obtain ⟨-, -, -, hbind, -⟩ := doc.config.platform.vocabulary_names type.signature.kind .raw
  have hcall : Firm (Piece.spell doc.newline (.call
      (doc.config.vocabulary.bindWord type.signature.kind)
      [type.name, param, Lowering.globalName type.signature.kind name param])) := by
    refine Piece.call_firm hbind fun arg harg => ?_
    simp only [List.mem_cons, List.not_mem_nil, or_false] at harg
    rcases harg with rfl | rfl | rfl
    · exact Piece.isArg_of_word (Or.inl h.name)
    · exact Piece.isArg_of_word (Or.inl hparam)
    · exact Piece.isArg_of_word (Or.inl (Lowering.globalName_isName _ hname hparam))
  unfold bindLine
  rw [hbody]
  constructor
  · intro rest
    have hclose : Spelling.Reads [(.semicolon, ";")] rest :=
      ⟨TokenKind.heads_firm (by simp), trivial⟩
    have hline := Spelling.reads_append.mpr ⟨hcall _, hclose⟩
    -- the indent is not empty, so that the blanks are a token of their own
    have hspaces := Piece.reads_spaces hindent
      (((Piece.begins_call hbind).append _).mono fun _ => Lexeme.isIdentPart_of_start) hline
    exact ⟨TokenKind.heads_eol hnewline, hspaces⟩
  · obtain ⟨b, more, hbytes, hbreak⟩ : ∃ b more, Text.bytes doc.newline = b :: more
        ∧ isBreak b = true := by
      generalize Text.bytes doc.newline = bytes at hnewline
      cases hnewline with
      | lineFeed => exact ⟨_, _, rfl, rfl⟩
      | carriageReturn => exact ⟨_, _, rfl, rfl⟩
    exact begins_cons hbytes hbreak

end Lines

/-- **The macro of a kernel parameter.** -/
theorem replacement_firm {use : Occurrence} {function : NodeId} {name : String}
    {definition : Bool} {param : Occurrence.Param}
    (hcontext : use.context = .kernelParam function name definition)
    (huse : use.param? = some param) (hparam : Text.IsName param.text) :
    Firm (replacement doc type use) ∧ Begins isIdentStart (replacement doc type use) := by
  obtain ⟨-, hword, -⟩ :=
    doc.config.platform.vocabulary_names type.signature.kind type.signature.mode
  unfold replacement
  rw [hcontext, huse]
  refine ⟨(Piece.call_firm hword fun arg harg => ?_).append fun _ => trivial,
    (Piece.begins_call hword).append _⟩
  simp only [List.mem_cons, List.not_mem_nil, or_false] at harg
  rcases harg with rfl | rfl
  · exact Piece.isArg_of_word (Or.inr (Text.isNumeral_toString _))
  · exact Piece.isArg_of_word (Or.inl hparam)

/-! ## §5. All that is put in -/

/-- **The lines of kernel definitions**, each of which may be what it likes. -/
theorem kernelLines_block {p : UInt8 → Bool} {mark : NodeId → Option NodeId}
    {line : Declared → NodeId → String → String → Spelling}
    {uses : List (Declared × Occurrence)} {id : TokenId}
    (h : ∀ u ∈ uses, ∀ function name param, kernel? u.2 = some (function, name, param) →
      startsAt doc (mark function) id = true → Block p (line u.1 function name param)) :
    Block p (kernelLines doc mark line uses id) := by
  unfold kernelLines
  split
  · refine Block.flatMap fun u hu => ?_
    obtain ⟨type, use⟩ := u
    dsimp only
    split
    · rename_i function name param hkernel
      split
      · rename_i hstarts
        exact h (type, use) hu function name param hkernel hstarts
      · exact .nil
    · exact .nil
  · exact .nil

/-- What the words of the uses are, when they are words of a loaded file. -/
structure Legible (doc : Document) (types : List Declared) : Prop where
  newline : Lexeme.Formed .newline (Text.bytes doc.newline)
  header : doc.config.prologue? = none
  worded : ∀ type ∈ types, type.Worded
  named : ∀ type ∈ types, ∀ use ∈ type.refs, ∀ function name definition,
    use.context = .kernelParam function name definition → Text.IsName name
  param : ∀ type ∈ types, ∀ use ∈ type.refs, ∀ param, use.param? = some param →
    Text.IsName param.text
  indent : ∀ body, 0 < Lowering.bodyIndent doc body

/-- A use that binds stands in the parameter list of a kernel with a body, and has a name. -/
theorem kernel?_eq_some {use : Occurrence} {function : NodeId} {name param : String}
    (h : kernel? use = some (function, name, param)) :
    use.context = .kernelParam function name true
      ∧ ∃ named, use.param? = some named ∧ named.text = param := by
  unfold kernel? at h
  split at h
  · rename_i hcontext hparam
    simp only [Option.some.injEq, Prod.mk.injEq] at h
    obtain ⟨rfl, rfl, rfl⟩ := h
    exact ⟨hcontext, _, hparam, rfl⟩
  · simp at h

namespace Legible

variable {types : List Declared} (h : Legible doc types) (id : TokenId)

include h

/-- **What leads a token** begins with a `#` or a word. -/
theorem lead : Block (fun b => b == 0x23 || isIdentStart b)
    (weft doc (includeLine doc) types (uses types) id).lead := by
  have hword : ∀ {line : Spelling}, Firm line ∧ Begins isIdentStart line →
      Block (fun b => b == 0x23 || isIdentStart b) line := fun hline =>
    ⟨hline.1, fun _ => hline.2.mono fun b hb => by simp [hb]⟩
  refine Block.append (Block.append ?_ (Block.flatMap fun type htype => ?_))
    (kernelLines_block fun u hu function name param hkernel _ => ?_)
  · unfold includeLine
    split
    · obtain ⟨hfirm, hbegins⟩ := includeLine_firm h.newline h.header
      exact ⟨hfirm, fun _ => hbegins.mono fun b hb => by simp_all⟩
    · exact .nil
  · exact hword (typeLine_firm h.newline (h.worded type (List.mem_filter.mp htype).1))
  · obtain ⟨htype, huse⟩ := Lowering.mem_uses.mp hu
    obtain ⟨hcontext, named, hparam, rfl⟩ := kernel?_eq_some hkernel
    exact hword (globalLine_firm h.newline (h.worded _ htype)
      (h.named _ htype _ huse _ _ _ hcontext) (h.param _ htype _ huse _ hparam))

/-- **What follows a token** begins with a line end. -/
theorem trail : Block isBreak (weft doc (includeLine doc) types (uses types) id).trail := by
  refine kernelLines_block fun u hu function name param hkernel hstarts => ?_
  obtain ⟨htype, huse⟩ := Lowering.mem_uses.mp hu
  obtain ⟨hcontext, named, hparam, rfl⟩ := kernel?_eq_some hkernel
  cases hbody : Outline.functionBody? doc.tree function with
  | none => simp [startsAt, hbody] at hstarts
  | some body =>
    obtain ⟨hfirm, hbegins⟩ := bindLine_firm h.newline (h.worded _ htype)
      (h.named _ htype _ huse _ _ _ hcontext) (h.param _ htype _ huse _ hparam) hbody
      (h.indent body)
    exact ⟨hfirm, fun _ => hbegins⟩

end Legible

end Weave

namespace Loaded

variable {doc : Document}

theorem mem_ids_of_kind? (h : Loaded doc) {id : TokenId} {kind : TokenKind}
    (hkind : doc.tokens.kind? id = some kind) : id ∈ doc.tokens.ids := by
  obtain ⟨token, htoken, -⟩ := TokenList.get?_of_kind? hkind
  exact h.unedited.mem_ids_iff.mpr (TokenList.index_lt_of_get? htoken)

theorem isName (h : Loaded doc) (hreads : (doc.tokens.spells doc.tokens.ids).Reads [])
    {text : String} (htext : doc.HasSymbol text) : Text.IsName text := by
  obtain ⟨id, hkind, rfl⟩ := htext
  exact TokenList.isName_of_symbol hreads (h.mem_ids_of_kind? hkind) hkind

/-- Bindings are indented, since no blank is empty. -/
theorem bodyIndent_pos (h : Loaded doc)
    (hreads : (doc.tokens.spells doc.tokens.ids).Reads []) (body : NodeId) :
    0 < Lowering.bodyIndent doc body := by
  unfold Lowering.bodyIndent
  dsimp only
  split
  · rename_i id _
    split
    · rename_i hkind
      obtain ⟨token, htoken, -, htext⟩ := TokenList.get?_of_kind? hkind
      have hentry : (token.kind, token.text) ∈ doc.tokens.spells doc.tokens.ids :=
        List.mem_filterMap.mpr ⟨id, h.mem_ids_of_kind? hkind, by rw [htoken]; rfl⟩
      rw [← htext, ← Text.length_bytes]
      exact List.length_pos_iff.mpr (mt Text.bytes_eq_nil.mp (hreads.ne_empty _ hentry))
    · decide
  · decide

end Loaded

/-- **What is put into a loaded file** is made of names, numbers and words of the platform. -/
theorem Document.load_legible [ContentHash] {config : Config} {source : String} {doc : Document}
    {found : List Occurrence} {types : List Declared}
    (hload : Document.load config source = .ok doc) (hheader : config.prologue? = none)
    (hfound : Occurrence.findAll doc = .ok found)
    (htypes : types = Weave.declareAll doc (Occurrence.groupAll doc.tokens found))
    (hrefs : types.map (·.refs) = Occurrence.groupAll doc.tokens found) :
    Weave.Legible doc types := by
  have h₀ := Document.load_loaded hload
  obtain ⟨hlex, -, hconfig, hnewline⟩ := Document.load_ok hload
  have hreads := (TokenList.lex_reads hlex).1
  -- every use in a group was found in the source, and is spelled by words of it
  have hworded : ∀ type ∈ types, ∀ use ∈ type.refs, Occurrence.Worded doc use := by
    intro type htype use huse
    have hgroup : type.refs ∈ Occurrence.groupAll doc.tokens found := by
      rw [← hrefs]
      exact List.mem_map_of_mem htype
    have hin := List.mem_flatten.mpr ⟨type.refs, hgroup, huse⟩
    exact Occurrence.findAll_worded hfound
      ((Occurrence.groupAll_perm doc.tokens found).subset hin)
  refine ⟨?_, by rw [hconfig, hheader], fun type htype => ?_, ?_, ?_, h₀.bodyIndent_pos hreads⟩
  · rw [hnewline]
    exact TokenList.newline_formed hreads
  · obtain ⟨i, hi⟩ := List.mem_iff_getElem?.mp htype
    rw [htypes] at hi
    obtain ⟨-, hfirst, hsignature, htexel, hname⟩ :=
      Weave.declare?_eq_some (Weave.declareAll_get hi)
    have hfirst := hworded type htype _ hfirst
    refine ⟨by rw [hname]; exact Weave.typeName_isName _ _, fun hkind => ?_⟩
    refine ⟨type.first.texel.map doc.tokens.textOf, ?_, ?_, htexel⟩
    · simpa using hfirst.typed _ hsignature hkind
    · intro word hword
      obtain ⟨id, hid, rfl⟩ := List.mem_map.mp hword
      exact Or.inl (h₀.isName hreads ⟨id, hfirst.texel id hid, rfl⟩)
  · intro type htype use huse function name definition hcontext
    exact h₀.isName hreads ((hworded type htype use huse).function _ _ _ hcontext)
  · intro type htype use huse param hparam
    exact h₀.isName hreads ((hworded type htype use huse).param _ hparam)

end KernelPrep
