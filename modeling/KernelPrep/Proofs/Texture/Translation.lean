/-
  KernelPrep.Proofs.Texture.Translation — from the words of one platform to those of another.

  What is spelled for a type or a use is the same on all platforms but for the words of the
  platform.  These cannot be told by their spelling alone, as a texel type or a parameter may
  have the name of such a word.  They can be told by what follows: macros are followed by an
  opening parenthesis, and the read mode of a type is the last argument where the type is
  defined.

  Main definitions:
    * `Vocabulary.counterpart` — the word of another platform that means the same;
    * `Spelling.translate`     — a spelling with its words replaced;
    * `Lowering.isWord`        — a token that was put in for a word of the platform;
    * `Lowering.translated`    — tokens of a lowered file with these words replaced.

  Main statements:
    * `Weave.typeLine_translate`, `Weave.replacement_translate` — what is spelled for a type
      and for a use on another platform;
    * `Lowering.translated_run` — tokens are translated as they are spelled.
-/
import KernelPrep.Proofs.Texture.Kept

namespace KernelPrep

/-! ## §1. Words and their counterparts -/

namespace Vocabulary

/-- All words of a vocabulary. -/
def words (v : Vocabulary) : List String :=
  [v.textureType, v.surfaceType, v.kernelTextureRaw, v.kernelTextureNormalized, v.kernelSurface,
    v.textureGlobal, v.surfaceGlobal, v.textureBind, v.surfaceBind, v.readRaw, v.readNormalized]

/-- The word of the vocabulary `v'` that means what the text means in `v`, where it is one of
    the words of `v`. -/
def counterpart (v v' : Vocabulary) (text : String) : String :=
  ((v.words.zip v'.words).lookup text).getD text

end Vocabulary

namespace Platform

variable {p p' : Platform}

/-- **Words that mean the same** are counterparts. -/
theorem counterparts (p p' : Platform) (kind : TextureKind) (mode : ReadMode) :
    (p.vocabulary.typeWord kind ∈ p.vocabulary.words
      ∧ p.vocabulary.counterpart p'.vocabulary (p.vocabulary.typeWord kind)
        = p'.vocabulary.typeWord kind)
    ∧ (p.vocabulary.paramWord kind mode ∈ p.vocabulary.words
      ∧ p.vocabulary.counterpart p'.vocabulary (p.vocabulary.paramWord kind mode)
        = p'.vocabulary.paramWord kind mode)
    ∧ p.vocabulary.readMode mode ∈ p.vocabulary.words
      ∧ p.vocabulary.counterpart p'.vocabulary (p.vocabulary.readMode mode)
        = p'.vocabulary.readMode mode := by
  cases p <;> cases p' <;> cases kind <;> cases mode <;> decide

/-- The words are names, and none is the name of a type. -/
theorem words_names {word : String} (h : word ∈ p.vocabulary.words) :
    Text.IsName word ∧ word.toList[2]? ≠ some 'T' ∧ word.toList[2]? ≠ some 'S' := by
  have hall : (p.vocabulary.words.all fun word => decide (Text.IsName word)
      && word.toList[2]? != some 'T' && word.toList[2]? != some 'S') = true := by
    cases p <;> decide
  have hword := List.all_eq_true.mp hall word h
  simpa [and_assoc] using hword

theorem not_word_of_mem {text : String} {b : UInt8} (hb : b ∈ Text.bytes text)
    (hpart : Lexeme.isIdentPart b = false) : text ∉ p.vocabulary.words := fun h =>
  (words_names h).1.ne_of_mem hb hpart rfl

theorem typeName_notMem (kind : TextureKind) (n : Nat) :
    Weave.typeName kind n ∉ p.vocabulary.words := by
  intro h
  obtain ⟨-, htexture, hsurface⟩ := words_names h
  exact (Weave.typeName_chars kind n).1.elim htexture hsurface

theorem numeral_notMem (n : Nat) : toString n ∉ p.vocabulary.words := fun h =>
  (words_names h).1.not_numeral (Text.isNumeral_toString n)

end Platform

/-! ## §2. Spellings -/

/-- Whether what stands before a token of the kind is a word of a platform, if it is spelled
    like one: macros are followed by an opening parenthesis, and the read mode of a type by the
    closing one. -/
def TokenKind.endsWord (defining : Bool) (kind : TokenKind) : Bool :=
  kind == .lparen || defining && kind == .rparen

namespace Spelling

/-- A text, in the words of the platform `p'` if it stands for a word of `p`; it is followed by
    a token of the given kind. -/
def translateWord (p p' : Platform) (defining : Bool) (next? : Option TokenKind) (text : String) :
    String :=
  if p.vocabulary.words.contains text && next?.any (·.endsWord defining) then
    p.vocabulary.counterpart p'.vocabulary text
  else text

/-- A spelling, where its words are those of the platform `p`, in the words of `p'`.  Behind it
    comes a token of the given kind. -/
def translate (p p' : Platform) (defining : Bool) (next? : Option TokenKind) :
    Spelling → Spelling
  | [] => []
  | entry :: rest =>
    (entry.1, translateWord p p' defining ((rest.head?.map (·.1)).or next?) entry.2)
      :: translate p p' defining next? rest

variable {p p' : Platform} {defining : Bool} {next? : Option TokenKind} {s : Spelling}

/-- A text is translated part by part, each by what follows it. -/
theorem translate_append (a b : Spelling) :
    translate p p' defining next? (a ++ b)
      = translate p p' defining ((b.head?.map (·.1)).or next?) a
        ++ translate p p' defining next? b := by
  induction a with
  | nil => rfl
  | cons entry rest ih =>
    have hhead : ((rest ++ b).head?.map (·.1)).or next?
        = (rest.head?.map (·.1)).or ((b.head?.map (·.1)).or next?) := by
      cases rest <;> rfl
    rw [List.cons_append, translate, hhead, ih]
    rfl

/-- Without words of the platform, nothing changes. -/
theorem translate_plain (h : ∀ entry ∈ s, entry.2 ∉ p.vocabulary.words) :
    translate p p' defining next? s = s := by
  induction s with
  | nil => rfl
  | cons entry rest ih =>
    obtain ⟨hfirst, hrest⟩ := List.forall_mem_cons.mp h
    have hword : p.vocabulary.words.contains entry.2 = false := by simpa using hfirst
    rw [translate, ih hrest, translateWord, hword]
    rfl

/-- Where no token ends a word of the platform, nothing changes. -/
theorem translate_of_followed (h : ∀ entry ∈ s.tail, entry.1.endsWord defining = false)
    (hnext : next?.any (·.endsWord defining) = false) :
    translate p p' defining next? s = s := by
  induction s with
  | nil => rfl
  | cons entry rest ih =>
    have hfollow : (((rest.head?.map (·.1)).or next?).any (·.endsWord defining)) = false := by
      cases rest with
      | nil => exact hnext
      | cons follow rest => exact h follow List.mem_cons_self
    rw [translate, translateWord, hfollow, Bool.and_false,
      ih fun entry hentry => h entry (List.mem_of_mem_tail hentry)]
    rfl

/-- A word of the platform that is followed by what ends it. -/
theorem translate_word (p' : Platform) {word : String} {kind : TokenKind}
    (hword : word ∈ p.vocabulary.words) (hends : kind.endsWord defining = true) :
    translate p p' defining (some kind) [(.symbol, word)]
      = [(.symbol, p.vocabulary.counterpart p'.vocabulary word)] := by
  have hcontains : p.vocabulary.words.contains word = true := by simpa using hword
  rw [translate, translateWord, hcontains]
  simp [hends, translate]

end Spelling

/-- The document, to be prepared with another configuration. -/
def Document.withConfig (doc : Document) (config : Config) : Document := { doc with config }

namespace Weave

variable {doc : Document} {config : Config} {types : List Declared} {type : Declared}
  {use : Occurrence} {next? : Option TokenKind}

open Spelling (translate translate_append translate_plain translate_of_followed translate_word)

/-- An argument has no parentheses. -/
theorem spellArg_kind {arg : String} {entry : TokenKind × String}
    (h : entry ∈ Piece.spellArg arg) (defining : Bool) : entry.1.endsWord defining = false := by
  rcases Piece.mem_intersperse h with h | rfl
  · obtain ⟨word, -, rfl⟩ := List.mem_map.mp h
    unfold Piece.spellWord
    split <;> cases defining <;> rfl
  · cases defining <;> rfl

/-- The name of a macro and arguments in which nothing ends a word. -/
theorem translate_call {p : Platform} (p' : Platform) {defining : Bool} {word : String}
    (hword : word ∈ p.vocabulary.words) {args : Spelling}
    (hargs : ∀ entry ∈ args, entry.1.endsWord defining = false)
    (hnext : next?.any (·.endsWord defining) = false) :
    translate p p' defining next? ((.symbol, word) :: (.lparen, "(") :: args)
      = (.symbol, p.vocabulary.counterpart p'.vocabulary word) :: (.lparen, "(") :: args := by
  have hrest : translate p p' defining next? ((.lparen, "(") :: args) = (.lparen, "(") :: args :=
    translate_of_followed (s := (.lparen, "(") :: args) hargs hnext
  have hname : translate p p' defining (some .lparen) [(.symbol, word)]
      = [(.symbol, p.vocabulary.counterpart p'.vocabulary word)] :=
    translate_word p' hword (by cases defining <;> rfl)
  calc translate p p' defining next? ((.symbol, word) :: (.lparen, "(") :: args)
      = translate p p' defining (some .lparen) [(.symbol, word)]
        ++ translate p p' defining next? ((.lparen, "(") :: args) :=
          translate_append [(.symbol, word)] ((.lparen, "(") :: args)
    _ = _ := by
      rw [hname, hrest]
      rfl

/-- A number as an argument. -/
theorem spellArg_numeral (n : Nat) : ∃ kind : TokenKind,
    (∀ defining, kind.endsWord defining = false)
      ∧ Piece.spellArg (toString n) = [(kind, toString n)] := by
  have hword : Piece.spellArg (toString n) = [Piece.spellWord (toString n)] := by
    unfold Piece.spellArg
    rw [Text.words_of_isWord (Or.inr (Text.isNumeral_toString n))]
    rfl
  rw [hword]
  unfold Piece.spellWord
  split
  · exact ⟨.number, by decide, rfl⟩
  · exact ⟨.symbol, by decide, rfl⟩

theorem spellArg_readMode (p : Platform) (mode : ReadMode) :
    Piece.spellArg (p.vocabulary.readMode mode) = [(.symbol, p.vocabulary.readMode mode)] := by
  cases p <;> cases mode <;> decide

/-- The end of a line that defines a type. -/
def typeTail (doc : Document) (type : Declared) : Spelling :=
  [(.rparen, ")"), (.whitespace, " "), (.symbol, type.name), (.semicolon, ";")]
    ++ [(.eol, doc.newline)]

/-- The line that defines the type of a texture. -/
theorem typeLine_texture (doc : Document) (type : Declared)
    (hkind : type.signature.kind = .texture) :
    typeLine doc type = [(.typedef, "typedef"), (.whitespace, " ")]
      ++ (((.symbol, doc.config.platform.vocabulary.typeWord .texture) :: (.lparen, "(")
          :: (Piece.spellArg type.texel ++ [(.comma, ","), (.whitespace, " ")]
            ++ Piece.spellArg (toString type.signature.dims.toNat)
            ++ [(.comma, ","), (.whitespace, " ")]))
        ++ ([(.symbol, doc.config.platform.vocabulary.readMode type.signature.mode)]
          ++ typeTail doc type)) := by
  unfold typeLine spelled Lowering.typePieces Config.vocabulary
  rw [hkind]
  simp only [List.flatMap_cons, List.flatMap_nil, Piece.spell, Piece.spellArgs, List.map_cons,
    List.map_nil, List.intercalate, List.intersperse, List.flatten_cons, List.flatten_nil,
    spellArg_readMode]
  simp [typeTail, TokenKind.spelling?]

/-- The line that defines the type of a surface. -/
theorem typeLine_surface (doc : Document) (type : Declared)
    (hkind : type.signature.kind = .surface) :
    typeLine doc type = [(.typedef, "typedef"), (.whitespace, " ")]
      ++ ([(.symbol, doc.config.platform.vocabulary.typeWord .surface), (.lparen, "(")]
        ++ (Piece.spellArg (toString type.signature.dims.toNat) ++ typeTail doc type)) := by
  unfold typeLine spelled Lowering.typePieces Config.vocabulary
  rw [hkind]
  simp [Piece.spell, Piece.spellArgs, typeTail, TokenKind.spelling?]

/-- **What defines a type** on another platform. -/
theorem typeLine_translate (hnewline : doc.newline ∉ doc.config.platform.vocabulary.words)
    (type : Declared) (config : Config) (next? : Option TokenKind) :
    translate doc.config.platform config.platform true next? (typeLine doc type)
      = typeLine (doc.withConfig config) type := by
  -- the name of the type and the line end behind it are no words of a platform
  have htail : translate doc.config.platform config.platform true next? (typeTail doc type)
      = typeTail (doc.withConfig config) type := by
    unfold typeTail
    rw [translate_append, translate_of_followed (by simp [TokenKind.endsWord])
      (by simp [TokenKind.endsWord]), translate_plain (by simpa using hnewline)]
    rfl
  have hstart : translate doc.config.platform config.platform true (some .symbol)
      [(.typedef, "typedef"), (.whitespace, " ")] = [(.typedef, "typedef"), (.whitespace, " ")] :=
    translate_of_followed (by simp [TokenKind.endsWord]) rfl
  obtain ⟨⟨hword, hcounter⟩, -, hmode, hcounterMode⟩ := Platform.counterparts doc.config.platform
    config.platform type.signature.kind type.signature.mode
  cases hkind : type.signature.kind with
  | texture =>
    rw [hkind] at hword hcounter
    -- the texel type may be spelled like a word of the platform, but no parenthesis follows it
    have hargs : ∀ entry ∈ Piece.spellArg type.texel ++ [(.comma, ","), (.whitespace, " ")]
        ++ Piece.spellArg (toString type.signature.dims.toNat)
        ++ [(.comma, ","), (.whitespace, " ")], entry.1.endsWord true = false := by
      intro entry hentry
      simp only [List.mem_append, List.mem_cons, List.not_mem_nil, or_false] at hentry
      rcases hentry with ((h | rfl | rfl) | h) | rfl | rfl
      · exact spellArg_kind h true
      · rfl
      · rfl
      · exact spellArg_kind h true
      · rfl
      · rfl
    have hnext : (some TokenKind.symbol).any (·.endsWord true) = false := rfl
    have hcall := translate_call config.platform hword hargs hnext
    have hread := translate_word config.platform hmode
      (show TokenKind.rparen.endsWord true = true from rfl)
    rw [hcounter] at hcall
    rw [hcounterMode] at hread
    rw [typeLine_texture doc type hkind, typeLine_texture _ type hkind, translate_append,
      translate_append, translate_append, htail]
    exact congrArg₂ (· ++ ·) hstart (congrArg₂ (· ++ ·) hcall (congrArg (· ++ _) hread))
  | surface =>
    rw [hkind] at hword hcounter
    obtain ⟨kind, hends, hdims⟩ := spellArg_numeral type.signature.dims.toNat
    have hargs : ∀ entry ∈ ([] : Spelling), entry.1.endsWord true = false := by simp
    have hnext : (some kind).any (·.endsWord true) = false := hends true
    have hcall := translate_call config.platform hword hargs hnext
    rw [hcounter] at hcall
    rw [typeLine_surface doc type hkind, typeLine_surface _ type hkind, hdims, translate_append,
      translate_append, translate_append, htail,
      translate_plain (s := [(kind, toString type.signature.dims.toNat)])
        (by simpa using Platform.numeral_notMem _)]
    exact congrArg₂ (· ++ ·) hstart (congrArg (· ++ _) hcall)

/-- **What stands for a use** on another platform. -/
theorem replacement_translate (hname : type.name ∉ doc.config.platform.vocabulary.words)
    (use : Occurrence) (config : Config) (next? : Option TokenKind) :
    translate doc.config.platform config.platform false next? (replacement doc type use)
      = replacement (doc.withConfig config) type use := by
  obtain ⟨-, ⟨hword, hcounter⟩, -⟩ := Platform.counterparts doc.config.platform
    config.platform type.signature.kind type.signature.mode
  unfold replacement
  split
  · rename_i param _ _
    have hspelled : ∀ doc : Document, spelled doc [.call (doc.config.vocabulary.paramWord
        type.signature.kind type.signature.mode) [toString type.signature.dims.toNat, param.text]]
      = ((.symbol, doc.config.platform.vocabulary.paramWord type.signature.kind
          type.signature.mode) :: (.lparen, "(")
          :: (Piece.spellArg (toString type.signature.dims.toNat)
            ++ [(.comma, ","), (.whitespace, " ")] ++ Piece.spellArg param.text))
        ++ [(.rparen, ")")] := by
      intro doc
      unfold spelled Config.vocabulary
      simp [Piece.spell, Piece.spellArgs, List.intercalate]
    -- of a call only the first word is one of the platform
    have hargs : ∀ entry ∈ Piece.spellArg (toString type.signature.dims.toNat)
        ++ [(.comma, ","), (.whitespace, " ")] ++ Piece.spellArg param.text,
        entry.1.endsWord false = false := by
      intro entry hentry
      simp only [List.mem_append, List.mem_cons, List.not_mem_nil, or_false] at hentry
      rcases hentry with (h | rfl | rfl) | h
      · exact spellArg_kind h false
      · rfl
      · rfl
      · exact spellArg_kind h false
    have hnext : (some TokenKind.rparen).any (·.endsWord false) = false := rfl
    have hcall := translate_call config.platform hword hargs hnext
    rw [hcounter] at hcall
    have hclose : ")" ∉ doc.config.platform.vocabulary.words :=
      Platform.not_word_of_mem (b := 0x29) (by decide) (by decide)
    rw [hspelled, hspelled, translate_append,
      translate_plain (s := [(.rparen, ")")]) (by simpa using hclose)]
    exact congrArg (· ++ _) hcall
  · exact translate_plain (by simpa [spelled, Piece.spell] using hname)

end Weave

/-! ## §3. Tokens -/

namespace Lowering

/-- The token is in the definition of a type. -/
def isDefining (state : Lowering) (x : TokenId) : Bool :=
  state.types.any fun type => (state.document.nodeTokens type.declaration).contains x

/-- The token was put into the document `doc` for a word of the platform: it is spelled like
    one and stands before an opening parenthesis, or before the closing one in the definition
    of a type. -/
def isWord (doc : Document) (state : Lowering) (x : TokenId) : Bool :=
  !doc.tokens.ids.contains x
    && state.document.config.vocabulary.words.contains (state.document.tokens.textOf x)
    && ((state.document.tokens.next? x).bind state.document.tokens.kind?).any
      (·.endsWord (state.isDefining x))

/-- The kinds and texts of tokens, where the words of the platform that were put into the
    document `doc` are replaced by those of another one. -/
def translated (doc : Document) (state : Lowering) (platform : Platform) (ids : List TokenId) :
    Spelling :=
  ids.filterMap fun x => (state.document.tokens.get? x).map fun token =>
    (token.kind, if isWord doc state x then
        state.document.config.vocabulary.counterpart platform.vocabulary token.text
      else token.text)

variable {doc : Document} {state : Lowering} {platform : Platform} {file before run after :
  List TokenId}

/-- Tokens of the document are left as they are. -/
theorem translated_own {ids : List TokenId} (h : ∀ x ∈ ids, x ∈ doc.tokens.ids) :
    translated doc state platform ids = state.document.tokens.spells ids := by
  unfold translated TokenList.spells
  refine List.filterMap_congr fun x hx => ?_
  have hnot : isWord doc state x = false := by
    unfold isWord
    simp [h x hx]
  rw [hnot]
  rfl

/-- **A run of tokens that were put in** is translated as it is spelled. -/
theorem translated_run (hfile : state.document.tokens.Threaded file)
    (hsplit : file = before ++ run ++ after) (hnew : ∀ x ∈ run, x ∉ doc.tokens.ids)
    {defining : Bool} (hdefining : ∀ x ∈ run, state.isDefining x = defining) :
    translated doc state platform run
      = Spelling.translate state.document.config.platform platform defining
        (after.head?.bind state.document.tokens.kind?) (state.document.tokens.spells run) := by
  induction run generalizing before with
  | nil => rfl
  | cons x rest ih =>
    have hin : x ∈ file := by
      rw [hsplit]
      simp
    obtain ⟨token, htoken, -⟩ := hfile.get?_of_mem hin
    have htext : state.document.tokens.textOf x = token.text := TokenList.textOf_of_get? htoken
    -- what follows the token
    have hnext : state.document.tokens.next? x = (rest ++ after).head? :=
      hfile.next?_eq (by rw [hsplit, List.append_assoc, List.cons_append])
    have hfollow : (state.document.tokens.next? x).bind state.document.tokens.kind?
        = ((state.document.tokens.spells rest).head?.map (·.1)).or
          (after.head?.bind state.document.tokens.kind?) := by
      rw [hnext]
      cases rest with
      | nil => rfl
      | cons y rest =>
        have hy : y ∈ file := by
          rw [hsplit]
          simp
        obtain ⟨follow, hget, -⟩ := hfile.get?_of_mem hy
        rw [TokenList.spells_cons hget]
        show state.document.tokens.kind? y = _
        rw [TokenList.kind?_of_get? hget]
        rfl
    have hword : isWord doc state x
        = (state.document.config.platform.vocabulary.words.contains token.text
          && (((state.document.tokens.spells rest).head?.map (·.1)).or
            (after.head?.bind state.document.tokens.kind?)).any (·.endsWord defining)) := by
      unfold isWord
      rw [hfollow, htext, hdefining x List.mem_cons_self]
      simp [hnew x List.mem_cons_self]
      rfl
    have hsplit' : file = (before ++ [x]) ++ rest ++ after := by simp [hsplit]
    have hrest := ih hsplit' (fun y hy => hnew y (List.mem_cons_of_mem _ hy))
      fun y hy => hdefining y (List.mem_cons_of_mem _ hy)
    rw [TokenList.spells_cons htoken, Spelling.translate, ← hrest]
    unfold translated
    rw [List.filterMap_cons, htoken, Option.map_some, hword]
    rfl

end Lowering

end KernelPrep
