/-
  KernelPrep.Proofs.Texture.Parts — the lowered file, part by part.

  What lowering puts into a file comes in parts: lines that define types, lines of variables
  and bindings for kernel parameters, and what stands for the uses.  Between them are the
  tokens that were left alone.  Each part but these belongs to one type and spells its words:
  those of the platform, names that were made, and words repeated from the file.

  Main definitions:
    * `Weave.Part`    — one part of a lowered file;
    * `Weave.parts`   — all of them, in order;
    * `Weave.IsPiece` — some tokens of the lowered file are a part.

  Main statements:
    * `Weave.exists_pieces`        — the lowered file is made of its parts;
    * `Weave.Part.type_of_spelled` — where the name of a type is spelled.
-/
import KernelPrep.Proofs.Texture.SourceOrder

namespace KernelPrep

open Lexeme (isIdentStart isIdentPart isIdentStart_of_digit)
open Strand (lay)

/-! ## §1. Names among the words of a piece -/

/-- The words of a piece. -/
def Piece.words : Piece → List String
  | .symbol text | .number text => [text]
  | .punct kind => [kind.spelling?.getD ""]
  | .call name args => name :: args.flatMap Text.words
  | .space | .indent _ | .eol | .string _ => []

namespace Text

/-- No blank and no mark of punctuation is a name. -/
theorem IsName.ne_of_mem {text other : String} (h : IsName text) {b : UInt8}
    (hb : b ∈ bytes other) (hpart : isIdentPart b = false) : text ≠ other := by
  rintro rfl
  rw [h.part b hb] at hpart
  exact Bool.noConfusion hpart

/-- No name is a numeral. -/
theorem IsName.not_numeral {text : String} (h : IsName text) : ¬ IsNumeral text := by
  intro hnumeral
  obtain ⟨b, body, hbytes, hstart⟩ := h.head
  have hdigit := hnumeral.digits b (by rw [hbytes]; exact List.mem_cons_self)
  rw [isIdentStart_of_digit hdigit] at hstart
  exact Bool.noConfusion hstart

/-- A word is its only word. -/
theorem words_of_isWord {word : String} (h : IsWord word) : words word = [word] := by
  have hjoin : words (" ".intercalate [word]) = [word] := words_join (by simpa using h)
  rwa [String.intercalate_singleton] at hjoin

end Text

namespace Piece

variable {entry : TokenKind × String}

/-- What stands in a row with separators. -/
theorem mem_intersperse {α : Type} {a sep : α} {items : List α} (h : a ∈ items.intersperse sep) :
    a ∈ items ∨ a = sep := by
  induction items with
  | nil => simp at h
  | cons x rest ih =>
    cases rest with
    | nil => exact Or.inl h
    | cons y rest =>
      rw [List.intersperse_cons_cons] at h
      rcases List.mem_cons.mp h with rfl | h
      · exact Or.inl List.mem_cons_self
      · rcases List.mem_cons.mp h with rfl | h
        · exact Or.inr rfl
        · exact (ih h).imp_left (List.mem_cons_of_mem _)

/-- The names in an argument are among its words. -/
theorem mem_spellArg {arg : String} (h : entry ∈ spellArg arg) (hname : Text.IsName entry.2) :
    entry.2 ∈ Text.words arg := by
  unfold spellArg at h
  rcases mem_intersperse h with hword | rfl
  · obtain ⟨word, hword, rfl⟩ := List.mem_map.mp hword
    have htext : (spellWord word).2 = word := by
      unfold spellWord
      split <;> rfl
    rwa [htext]
  · exact absurd rfl (hname.ne_of_mem (b := 0x20) (by decide) (by decide))

/-- The names in arguments are among their words. -/
theorem mem_spellArgs {args : List String} (h : entry ∈ spellArgs args)
    (hname : Text.IsName entry.2) : entry.2 ∈ args.flatMap Text.words := by
  unfold spellArgs List.intercalate at h
  obtain ⟨tokens, htokens, hin⟩ := List.mem_flatten.mp h
  rcases mem_intersperse htokens with hmem | rfl
  · obtain ⟨arg, harg, rfl⟩ := List.mem_map.mp hmem
    exact List.mem_flatMap.mpr ⟨arg, harg, mem_spellArg hin hname⟩
  · simp only [List.mem_cons, List.not_mem_nil, or_false] at hin
    rcases hin with rfl | rfl
    · exact absurd rfl (hname.ne_of_mem (b := 0x2C) (by decide) (by decide))
    · exact absurd rfl (hname.ne_of_mem (b := 0x20) (by decide) (by decide))

/-- **The names in a piece** are among its words. -/
theorem mem_words {piece : Piece} {eol : String}
    (heol : Lexeme.Formed .newline (Text.bytes eol)) (h : entry ∈ piece.spell eol)
    (hname : Text.IsName entry.2) : entry.2 ∈ piece.words := by
  cases piece with
  | symbol text | number text | punct kind =>
    rw [List.mem_singleton.mp h]
    exact List.mem_singleton_self _
  | space =>
    rw [List.mem_singleton.mp h] at hname
    exact absurd rfl (hname.ne_of_mem (b := 0x20) (by decide) (by decide))
  | indent width =>
    rw [List.mem_singleton.mp h] at hname
    obtain ⟨b, body, hbytes, hstart⟩ := hname.head
    -- all of its characters are blanks
    have hblank : ∀ x ∈ Text.bytes (String.ofList (List.replicate width ' ')), x = 0x20 := by
      intro x hx
      rw [Text.bytes_eq, String.toList_ofList] at hx
      obtain ⟨c, hc, hx⟩ := List.mem_flatMap.mp hx
      rw [(List.mem_replicate.mp hc).2, show String.utf8EncodeChar ' ' = [0x20] by decide] at hx
      exact List.mem_singleton.mp hx
    rw [hblank b (by rw [hbytes]; exact List.mem_cons_self)] at hstart
    exact absurd hstart (by decide)
  | eol =>
    rw [List.mem_singleton.mp h] at hname
    generalize hbytes : Text.bytes eol = bytes at heol
    cases heol with
    | lineFeed =>
      exact absurd rfl (hname.ne_of_mem (b := Lexeme.lf) (by simp [hbytes]) (by decide))
    | carriageReturn =>
      exact absurd rfl (hname.ne_of_mem (b := Lexeme.lf) (by simp [hbytes]) (by decide))
  | string text =>
    rw [List.mem_singleton.mp h] at hname
    refine absurd rfl (hname.ne_of_mem (b := 0x22) ?_ (by decide))
    rw [Text.bytes_append]
    exact List.mem_append_right _ (by decide)
  | call name args =>
    rcases List.mem_append.mp h with h | h
    · rcases List.mem_cons.mp h with rfl | h
      · exact List.mem_cons_self
      · rcases List.mem_cons.mp h with rfl | h
        · exact absurd rfl (hname.ne_of_mem (b := 0x28) (by decide) (by decide))
        · exact List.mem_cons_of_mem _ (mem_spellArgs h hname)
    · rw [List.mem_singleton.mp h] at hname
      exact absurd rfl (hname.ne_of_mem (b := 0x29) (by decide) (by decide))

end Piece

/-! ## §2. The names of types among other words -/

namespace Weave

/-- The name of the type of a kind and number. -/
abbrev typeName (kind : TextureKind) (n : Nat) : String :=
  "__" ++ kind.stem ++ "TypeName_" ++ toString n ++ "__"

/-- The name of a type is known from its third character and its tenth. -/
theorem typeName_chars (kind : TextureKind) (n : Nat) :
    ((typeName kind n).toList[2]? = some 'T' ∨ (typeName kind n).toList[2]? = some 'S')
      ∧ (typeName kind n).toList[9]? = some 'T' := by
  cases kind with
  | texture => simp [typeName, TextureKind.stem]
  | surface => simp [typeName, TextureKind.stem]

/-- **The name of a type** is no word of a platform. -/
theorem typeName_ne_vocabulary (kind : TextureKind) (n : Nat) (platform : Platform)
    (other : TextureKind) (mode : ReadMode) :
    typeName kind n ≠ platform.vocabulary.typeWord other
      ∧ typeName kind n ≠ platform.vocabulary.paramWord other mode
      ∧ typeName kind n ≠ platform.vocabulary.globalWord other
      ∧ typeName kind n ≠ platform.vocabulary.bindWord other
      ∧ typeName kind n ≠ platform.vocabulary.readMode mode := by
  have hwords : ∀ word ∈ [platform.vocabulary.typeWord other,
      platform.vocabulary.paramWord other mode, platform.vocabulary.globalWord other,
      platform.vocabulary.bindWord other, platform.vocabulary.readMode mode],
      word.toList[2]? ≠ some 'T' ∧ word.toList[2]? ≠ some 'S' := by
    cases platform <;> cases other <;> cases mode <;> decide
  have hne : ∀ word, word.toList[2]? ≠ some 'T' ∧ word.toList[2]? ≠ some 'S' →
      typeName kind n ≠ word := by
    rintro word hword rfl
    rcases (typeName_chars kind n).1 with he | he
    · exact hword.1 he
    · exact hword.2 he
  refine ⟨hne _ (hwords _ ?_), hne _ (hwords _ ?_), hne _ (hwords _ ?_), hne _ (hwords _ ?_),
    hne _ (hwords _ ?_)⟩ <;> simp

/-- The name of a type is no name of a variable. -/
theorem typeName_ne_globalName (kind other : TextureKind) (n : Nat) (function param : String) :
    typeName kind n ≠ Lowering.globalName other function param := by
  intro he
  have hchar := (typeName_chars kind n).2
  rw [he] at hchar
  cases other with
  | texture => simp [Lowering.globalName, TextureKind.stem] at hchar
  | surface => simp [Lowering.globalName, TextureKind.stem] at hchar

/-! ## §3. Parts -/

/-- One part of a lowered file. -/
inductive Part where
  /-- A token that was left alone. -/
  | own (id : TokenId)
  /-- The line that defines a type. -/
  | definition (type : Declared)
  /-- The line of the variable for a kernel parameter. -/
  | global (type : Declared) (function : NodeId) (name param : String)
  /-- The line that binds a kernel parameter. -/
  | binding (type : Declared) (function : NodeId) (name param : String)
  /-- What stands for a use. -/
  | form (type : Declared) (use : Occurrence)

namespace Part

/-- The tokens of a part. -/
def spelling (doc : Document) : Part → Spelling
  | own id => doc.tokens.spells [id]
  | definition type => typeLine doc type
  | global type function name param => globalLine doc type function name param
  | binding type function name param => bindLine doc type function name param
  | form type use => replacement doc type use

/-- The type to which a part belongs. -/
def type? : Part → Option Declared
  | own _ => none
  | definition type | global type _ _ _ | binding type _ _ _ | form type _ => some type

/-- The words of the file that a part repeats: those of a texel type, or the name of a kernel
    parameter. -/
def quoted (doc : Document) : Part → List String
  | own _ | global _ _ _ _ => []
  | definition type => type.first.texel.map doc.tokens.textOf
  | binding _ _ _ param => [param]
  | form _ use =>
    match use.context, use.param? with
    | .kernelParam .., some param => [param.text]
    | _, _ => []

end Part

variable {doc : Document} {types : List Declared} {id : TokenId}

/-- Parts for the textures of kernel definitions, where `mark` is the node of the kernel that
    starts with the token. -/
def kernelParts (doc : Document) (mark : NodeId → Option NodeId)
    (part : Declared → NodeId → String → String → Part) (uses : List (Declared × Occurrence))
    (id : TokenId) : List Part :=
  if doc.config.platform.bindsGlobals then
    uses.flatMap fun (type, use) =>
      match kernel? use with
      | some (function, name, param) =>
        if startsAt doc (mark function) id then [part type function name param] else []
      | none => []
  else []

/-- The types whose earliest use lies in the construct that starts with the token. -/
def typesAt (doc : Document) (types : List Declared) (id : TokenId) : List Declared :=
  types.filter fun type => startsAt doc (doc.tree.container? type.first.node) id

/-- The parts before a token. -/
def leadParts (doc : Document) (types : List Declared) (id : TokenId) : List Part :=
  (typesAt doc types id).map .definition ++ kernelParts doc some .global (uses types) id

/-- The parts in place of a token. -/
def coreParts (doc : Document) (types : List Declared) (id : TokenId) : List Part :=
  match (uses types).find? (·.2.keyword == id) with
  | some (type, use) => [.form type use]
  | none =>
    if (uses types).any fun (_, use) => (doc.tokens.range (cut use)).contains id then []
    else [.own id]

/-- The parts behind a token. -/
def trailParts (doc : Document) (types : List Declared) (id : TokenId) : List Part :=
  kernelParts doc (Outline.functionBody? doc.tree) .binding (uses types) id

/-- The parts that a token has become. -/
def partsAt (doc : Document) (types : List Declared) (id : TokenId) : List Part :=
  leadParts doc types id ++ coreParts doc types id ++ trailParts doc types id

/-- All parts of the lowered file. -/
def parts (doc : Document) (types : List Declared) : List Part :=
  doc.tokens.ids.flatMap (partsAt doc types)

/-- The parts for the kernels that start with a token. -/
theorem mem_kernelParts {mark : NodeId → Option NodeId}
    {make : Declared → NodeId → String → String → Part} {used : List (Declared × Occurrence)}
    {part : Part} :
    part ∈ kernelParts doc mark make used id
      ↔ doc.config.platform.bindsGlobals = true ∧ ∃ u ∈ used, ∃ function name param,
        kernel? u.2 = some (function, name, param) ∧ startsAt doc (mark function) id = true
          ∧ part = make u.1 function name param := by
  unfold kernelParts
  by_cases hon : doc.config.platform.bindsGlobals = true
  · rw [if_pos hon, List.mem_flatMap]
    refine ⟨?_, ?_⟩
    · rintro ⟨u, hu, hpart⟩
      refine ⟨hon, u, hu, ?_⟩
      cases hkernel : kernel? u.2 with
      | none => simp [hkernel] at hpart
      | some found =>
        obtain ⟨function, name, param⟩ := found
        simp only [hkernel] at hpart
        split at hpart
        · rename_i hstarts
          exact ⟨function, name, param, rfl, hstarts, List.mem_singleton.mp hpart⟩
        · simp at hpart
    · rintro ⟨-, u, hu, function, name, param, hkernel, hstarts, rfl⟩
      exact ⟨u, hu, by simp [hkernel, hstarts]⟩
  · simp [hon]

/-- In place of a token stands what a use was made into, or the token itself. -/
theorem mem_coreParts {part : Part} :
    part ∈ coreParts doc types id
      ↔ (∃ u, (uses types).find? (·.2.keyword == id) = some u ∧ part = .form u.1 u.2)
        ∨ (part = .own id ∧ core? doc (uses types) id = none) := by
  unfold coreParts core?
  cases (uses types).find? (·.2.keyword == id) with
  | some u => simp
  | none =>
    dsimp only
    split
    · simp
    · simp

/-- **The parts at a token**, by what they are. -/
theorem mem_partsAt {part : Part} :
    part ∈ partsAt doc types id
      ↔ (∃ type ∈ typesAt doc types id, part = .definition type)
        ∨ part ∈ kernelParts doc some .global (uses types) id
        ∨ part ∈ coreParts doc types id
        ∨ part ∈ kernelParts doc (Outline.functionBody? doc.tree) .binding (uses types) id := by
  unfold partsAt leadParts trailParts
  rw [List.mem_append, List.mem_append, List.mem_append, List.mem_map, or_assoc, or_assoc]
  simp only [eq_comm]

/-- The tokens of lines for kernels. -/
theorem spelling_kernelParts (mark : NodeId → Option NodeId)
    (make : Declared → NodeId → String → String → Part) (used : List (Declared × Occurrence)) :
    (kernelParts doc mark make used id).flatMap (·.spelling doc)
      = kernelLines doc mark (fun type function name param =>
          (make type function name param).spelling doc) used id := by
  unfold kernelParts kernelLines
  split
  · rw [List.flatMap_assoc]
    refine List.flatMap_congr fun u _ => ?_
    obtain ⟨type, use⟩ := u
    dsimp only
    cases kernel? use with
    | none => rfl
    | some found =>
      obtain ⟨function, name, param⟩ := found
      dsimp only
      split
      · exact List.flatMap_singleton ..
      · rfl
  · rfl

/-- Before a token stand the lines of its types and of its kernels' variables. -/
theorem spelling_leadParts :
    (leadParts doc types id).flatMap (·.spelling doc)
      = typeLines doc types id ++ kernelLines doc some (globalLine doc) (uses types) id := by
  unfold leadParts
  rw [List.flatMap_append, spelling_kernelParts, List.flatMap_map]
  rfl

/-- Behind a token stand the bindings of the kernel whose body it opens. -/
theorem spelling_trailParts :
    (trailParts doc types id).flatMap (·.spelling doc)
      = kernelLines doc (Outline.functionBody? doc.tree) (bindLine doc) (uses types) id :=
  spelling_kernelParts _ _ _

/-- A token is a part of its own, or what stands for it is. -/
theorem coreParts_cases (doc : Document) (types : List Declared) (id : TokenId) :
    (core? doc (uses types) id = none ∧ coreParts doc types id = [.own id])
      ∨ (core? doc (uses types) id = some ((coreParts doc types id).flatMap (·.spelling doc))
        ∧ ∀ x, Part.own x ∉ coreParts doc types id) := by
  unfold core? coreParts
  cases (uses types).find? (·.2.keyword == id) with
  | some u =>
    right
    exact ⟨congrArg some (List.flatMap_singleton ..).symm, by simp⟩
  | none =>
    dsimp only
    by_cases hcut : ((uses types).any fun u => (doc.tokens.range (cut u.2)).contains id) = true
    · rw [if_pos hcut, if_pos hcut]
      exact Or.inr ⟨rfl, by simp⟩
    · rw [if_neg hcut, if_neg hcut]
      exact Or.inl ⟨rfl, rfl⟩

/-! ## §4. Pieces of the lowered file -/

/-- The tokens are those of the part: a token that was left alone, or new ones. -/
structure IsPiece (doc doc' : Document) (part : Part) (ids : List TokenId) : Prop where
  spells : doc'.tokens.spells ids = part.spelling doc
  own : ∀ id, part = .own id → ids = [id] ∧ id ∈ doc.tokens.ids
  new : (∀ id, part ≠ .own id) → ∀ x ∈ ids, x ∉ doc.tokens.ids

/-- Live tokens that spell some items one after the other fall into the tokens of each. -/
theorem split_spells {α : Type} {list : TokenList} {f : α → Spelling} {items : List α}
    {ids : List TokenId} (hlive : ∀ x ∈ ids, ∃ token, list.get? x = some token)
    (h : list.spells ids = items.flatMap f) :
    ∃ pieces : List (α × List TokenId), pieces.map (·.1) = items ∧ pieces.flatMap (·.2) = ids
      ∧ ∀ piece ∈ pieces, list.spells piece.2 = f piece.1 := by
  induction items generalizing ids with
  | nil =>
    refine ⟨[], rfl, ?_, by simp⟩
    cases ids with
    | nil => rfl
    | cons x rest =>
      obtain ⟨token, htoken⟩ := hlive x List.mem_cons_self
      unfold TokenList.spells at h
      simp [htoken] at h
  | cons item items ih =>
    rw [List.flatMap_cons] at h
    obtain ⟨own, more, rfl, hown, hmore⟩ := List.filterMap_eq_append_iff.mp h
    obtain ⟨pieces, rfl, rfl, hall⟩ :=
      ih (fun x hx => hlive x (List.mem_append_right _ hx)) hmore
    exact ⟨(item, own) :: pieces, rfl, rfl, List.forall_mem_cons.mpr ⟨hown, hall⟩⟩

section Pieces

variable {doc' : Document} {strand : TokenId → Strand}

/-- New tokens that spell parts fall into pieces. -/
theorem new_pieces (h₀ : Loaded doc) {items : List Part} {ids : List TokenId}
    (hitems : ∀ x, Part.own x ∉ items) (hlive : ∀ x ∈ ids, doc'.tokens.isLinked x = true)
    (hnew : ∀ x ∈ ids, doc.tokens.slots.size ≤ x.index)
    (hspells : doc'.tokens.spells ids = items.flatMap (·.spelling doc)) :
    ∃ pieces : List (Part × List TokenId), pieces.map (·.1) = items
      ∧ pieces.flatMap (·.2) = ids ∧ ∀ piece ∈ pieces, IsPiece doc doc' piece.1 piece.2 := by
  have htokens : ∀ x ∈ ids, ∃ token, doc'.tokens.get? x = some token := by
    intro x hx
    have hlinked := hlive x hx
    unfold TokenList.isLinked at hlinked
    cases hget : doc'.tokens.get? x with
    | none => simp [hget] at hlinked
    | some token => exact ⟨token, rfl⟩
  obtain ⟨pieces, rfl, rfl, hall⟩ := split_spells htokens hspells
  refine ⟨pieces, rfl, rfl, fun piece hpiece => ⟨hall piece hpiece, ?_, ?_⟩⟩
  · intro id he
    exact absurd (he ▸ List.mem_map_of_mem hpiece) (hitems id)
  · intro _ x hx hold
    have hge := hnew x (List.mem_flatMap.mpr ⟨piece, hpiece, hx⟩)
    have hlt := h₀.unedited.mem_ids_iff.mp hold
    omega

/-- Lines of kernels are no tokens of the file. -/
theorem own_notMem_kernelParts {mark : NodeId → Option NodeId}
    {make : Declared → NodeId → String → String → Part} (used : List (Declared × Occurrence))
    (hmake : ∀ type function name param x, make type function name param ≠ .own x) (x : TokenId) :
    Part.own x ∉ kernelParts doc mark make used id := by
  intro hin
  obtain ⟨-, u, -, function, name, param, -, -, he⟩ := mem_kernelParts.mp hin
  exact hmake _ _ _ _ x he.symm

/-- **What a token has become** falls into its parts. -/
theorem pieces_at (h : Woven doc doc' strand (weft doc (fun _ => []) types (uses types)))
    (h₀ : Loaded doc) (hid : id ∈ doc.tokens.ids) :
    ∃ pieces : List (Part × List TokenId), pieces.map (·.1) = partsAt doc types id
      ∧ pieces.flatMap (·.2) = (strand id).ids
      ∧ ∀ piece ∈ pieces, IsPiece doc doc' piece.1 piece.2 := by
  have hreads := h.reads id hid
  have hlinked : ∀ x ∈ (strand id).ids, doc'.tokens.isLinked x = true := fun x hx =>
    h.isLinked hid hx
  unfold Strand.ids at hlinked ⊢
  -- what stands before the token and behind it
  have hleadspells : doc'.tokens.spells (strand id).lead
      = (leadParts doc types id).flatMap (·.spelling doc) := by
    rw [hreads.lead, spelling_leadParts]
    rfl
  have hownlead : ∀ x, Part.own x ∉ leadParts doc types id := by
    intro x hin
    rcases List.mem_append.mp hin with hin | hin
    · simp at hin
    · exact own_notMem_kernelParts _ (by simp) x hin
  obtain ⟨leads, hleads, hleadids, hlead⟩ := new_pieces h₀ hownlead
    (fun x hx => hlinked x (by simp [hx])) (fun x hx => h.laid.added id hid x (by simp [hx]))
    hleadspells
  have htrailspells : doc'.tokens.spells (strand id).trail
      = (trailParts doc types id).flatMap (·.spelling doc) := by
    rw [hreads.trail, spelling_trailParts]
    rfl
  obtain ⟨trails, htrails, htrailids, htrail⟩ := new_pieces h₀
    (fun x => own_notMem_kernelParts _ (by simp) x)
    (fun x hx => hlinked x (by simp [hx])) (fun x hx => h.laid.added id hid x (by simp [hx]))
    htrailspells
  -- what stands in its place
  obtain ⟨cores, hcores, hcoreids, hcore⟩ : ∃ pieces : List (Part × List TokenId),
      pieces.map (·.1) = coreParts doc types id ∧ pieces.flatMap (·.2) = (strand id).core
        ∧ ∀ piece ∈ pieces, IsPiece doc doc' piece.1 piece.2 := by
    rcases coreParts_cases doc types id with ⟨hnone, hown⟩ | ⟨hsome, hnot⟩
    · have hself := hreads.self hnone
      refine ⟨[(.own id, [id])], hown.symm, by rw [hself]; rfl, ?_⟩
      intro piece hpiece
      obtain rfl := List.mem_singleton.mp hpiece
      refine ⟨?_, ?_, fun hnot => absurd rfl (hnot id)⟩
      · refine TokenList.spells_congr fun x hx => ?_
        rw [List.mem_singleton.mp hx, h.laid.face id hid hself]
      · rintro x hx
        obtain rfl := Part.own.inj hx
        exact ⟨rfl, hid⟩
    · obtain ⟨hgone, hspells⟩ := hreads.other _ hsome
      refine new_pieces h₀ hnot (fun x hx => hlinked x (by simp [hx])) ?_ hspells
      refine (h.laid.core id hid).resolve_left fun hself => hgone ?_
      rw [hself]
      exact List.mem_singleton_self _
  refine ⟨leads ++ cores ++ trails, ?_, ?_, ?_⟩
  · rw [List.map_append, List.map_append, hleads, hcores, htrails]
    rfl
  · rw [List.flatMap_append, List.flatMap_append, hleadids, hcoreids, htrailids]
  · intro piece hpiece
    rcases List.mem_append.mp hpiece with hpiece | hpiece
    · rcases List.mem_append.mp hpiece with hpiece | hpiece
      · exact hlead piece hpiece
      · exact hcore piece hpiece
    · exact htrail piece hpiece

/-- **The lowered file** is made of its parts. -/
theorem exists_pieces (h : Woven doc doc' strand (weft doc (fun _ => []) types (uses types)))
    (h₀ : Loaded doc) :
    ∃ pieces : List (Part × List TokenId), pieces.map (·.1) = parts doc types
      ∧ doc'.tokens.ids = pieces.flatMap (·.2)
      ∧ ∀ piece ∈ pieces, IsPiece doc doc' piece.1 piece.2 := by
  have hall : ∀ ids : List TokenId, (∀ id ∈ ids, id ∈ doc.tokens.ids) →
      ∃ pieces : List (Part × List TokenId), pieces.map (·.1) = ids.flatMap (partsAt doc types)
        ∧ pieces.flatMap (·.2) = lay strand ids
        ∧ ∀ piece ∈ pieces, IsPiece doc doc' piece.1 piece.2 := by
    intro ids hids
    induction ids with
    | nil => exact ⟨[], rfl, rfl, by simp⟩
    | cons id rest ih =>
      obtain ⟨first, hfirst, hfirstids, hone⟩ := pieces_at h h₀ (hids id List.mem_cons_self)
      obtain ⟨more, hmore, hmoreids, hmany⟩ :=
        ih fun x hx => hids x (List.mem_cons_of_mem _ hx)
      refine ⟨first ++ more, ?_, ?_, ?_⟩
      · rw [List.map_append, hfirst, hmore, List.flatMap_cons]
      · rw [List.flatMap_append, hfirstids, hmoreids, Strand.lay_cons]
      · intro piece hpiece
        rcases List.mem_append.mp hpiece with hpiece | hpiece
        · exact hone piece hpiece
        · exact hmany piece hpiece
  obtain ⟨pieces, hparts, hids, hpieces⟩ := hall doc.tokens.ids fun _ hid => hid
  exact ⟨pieces, hparts, by rw [h.laid.threaded.ids_eq, hids], hpieces⟩

end Pieces

/-! ## §5. Where the name of a type is spelled -/

/-- The words of types and uses are names of the file, and the names of types were made. -/
structure Known (doc : Document) (types : List Declared) : Prop where
  newline : Lexeme.Formed .newline (Text.bytes doc.newline)
  made : ∀ type ∈ types, ∃ n, type.name = typeName type.signature.kind n
  distinct : (types.map (·.name)).Nodup
  joined : ∀ type ∈ types, type.texel = " ".intercalate (type.first.texel.map doc.tokens.textOf)
  texel : ∀ type ∈ types, ∀ x ∈ type.first.texel, Text.IsName (doc.tokens.textOf x)
  function : ∀ u ∈ uses types, ∀ function name definition,
    u.2.context = .kernelParam function name definition → Text.IsName name
  param : ∀ u ∈ uses types, ∀ param, u.2.param? = some param → Text.IsName param.text

/-- The names in new text are among the words of its pieces. -/
theorem mem_spelled (hnewline : Lexeme.Formed .newline (Text.bytes doc.newline))
    {pieces : List Piece} {entry : TokenKind × String} (h : entry ∈ spelled doc pieces)
    (hname : Text.IsName entry.2) : entry.2 ∈ pieces.flatMap Piece.words := by
  obtain ⟨piece, hpiece, hentry⟩ := List.mem_flatMap.mp h
  exact List.mem_flatMap.mpr ⟨piece, hpiece, Piece.mem_words hnewline hentry hname⟩

namespace Known

variable {type other : Declared} {entry : TokenKind × String}

/-- The name of a type is a name. -/
theorem isName (h : Known doc types) (htype : type ∈ types) : Text.IsName type.name := by
  obtain ⟨n, hn⟩ := h.made type htype
  rw [hn]
  exact typeName_isName _ _

/-- Types are told apart by their names. -/
theorem eq_of_name (h : Known doc types) (htype : type ∈ types) (hother : other ∈ types)
    (he : type.name = other.name) : other = type :=
  List.inj_on_of_nodup_map h.distinct hother htype he.symm

/-- The name of a type is no number. -/
theorem ne_dims (h : Known doc types) (htype : type ∈ types) (n : Nat) :
    type.name ∉ Text.words (toString n) := by
  have hnumeral := Text.isNumeral_toString n
  rw [Text.words_of_isWord (Or.inr hnumeral), List.mem_singleton]
  intro he
  exact (h.isName htype).not_numeral (he ▸ hnumeral)

/-- No type is called like a word of the platform. -/
theorem ne_vocabulary (h : Known doc types) (htype : type ∈ types) (kind : TextureKind)
    (mode : ReadMode) :
    type.name ≠ doc.config.vocabulary.typeWord kind
      ∧ type.name ≠ doc.config.vocabulary.paramWord kind mode
      ∧ type.name ≠ doc.config.vocabulary.globalWord kind
      ∧ type.name ≠ doc.config.vocabulary.bindWord kind
      ∧ type.name ≠ doc.config.vocabulary.readMode mode := by
  obtain ⟨n, hn⟩ := h.made type htype
  rw [hn]
  exact typeName_ne_vocabulary _ _ _ _ _

/-- Keywords and marks of punctuation are no names. -/
theorem ne_punct (h : Known doc types) (htype : type ∈ types) :
    type.name ≠ TokenKind.typedef.spelling?.getD ""
      ∧ type.name ≠ TokenKind.semicolon.spelling?.getD "" := by
  obtain ⟨n, hn⟩ := h.made type htype
  have hchars := typeName_chars type.signature.kind n
  rw [← hn] at hchars
  refine ⟨?_, ?_⟩
  · intro he
    rw [he] at hchars
    revert hchars
    decide
  · intro he
    rw [he] at hchars
    revert hchars
    decide

/-- The name of a type is in that of no other. -/
theorem mem_words_name (h : Known doc types) (htype : type ∈ types) (hother : other ∈ types)
    (hmem : type.name ∈ Text.words other.name) : other = type := by
  rw [Text.words_of_isWord (Or.inl (h.isName hother)), List.mem_singleton] at hmem
  exact h.eq_of_name htype hother hmem

/-- **The line that defines a type** spells its name and the words of its texel type. -/
theorem mem_typeLine (h : Known doc types) (htype : type ∈ types) (hother : other ∈ types)
    (hentry : entry ∈ typeLine doc other) (he : entry.2 = type.name) :
    other = type ∨ type.name ∈ other.first.texel.map doc.tokens.textOf := by
  have hmem := mem_spelled h.newline hentry (he ▸ h.isName htype)
  have hwords := h.ne_vocabulary htype other.signature.kind other.signature.mode
  obtain ⟨htypedef, hsemicolon⟩ := h.ne_punct htype
  have hread : type.name ∉ Text.words (doc.config.vocabulary.readMode other.signature.mode) := by
    have hname : Text.IsName (doc.config.vocabulary.readMode other.signature.mode) :=
      (Platform.vocabulary_names doc.config.platform .texture other.signature.mode).2.2.2.2
    rw [Text.words_of_isWord (Or.inl hname), List.mem_singleton]
    exact hwords.2.2.2.2
  -- the name may be a word of the texel type, and is no other word of the line
  have htexel : type.name ∈ Text.words other.texel →
      type.name ∈ other.first.texel.map doc.tokens.textOf := by
    intro hin
    rw [h.joined other hother, Text.words_join] at hin
    · exact hin
    · intro word hword
      obtain ⟨x, hx, rfl⟩ := List.mem_map.mp hword
      exact Or.inl (h.texel other hother x hx)
  have hdims := h.ne_dims htype other.signature.dims.toNat
  rw [he] at hmem
  simp only [Lowering.typePieces, List.flatMap_cons, List.flatMap_nil, Piece.words,
    List.mem_append, List.mem_cons, List.not_mem_nil, or_false, false_or, htypedef, hsemicolon,
    hwords.1] at hmem
  rcases hmem with hargs | hname
  · right
    cases hkind : other.signature.kind with
    | texture =>
      rw [hkind] at hargs
      simp only [List.flatMap_cons, List.flatMap_nil, List.mem_append, hdims, hread, or_false,
        List.not_mem_nil] at hargs
      exact htexel hargs
    | surface =>
      rw [hkind] at hargs
      simp only [List.flatMap_cons, List.flatMap_nil, List.mem_append, hdims, or_false,
        List.not_mem_nil] at hargs
  · exact Or.inl (h.eq_of_name htype hother hname)

/-- No type is called like a variable. -/
theorem ne_globalName (h : Known doc types) (htype : type ∈ types) {u : Declared × Occurrence}
    (hu : u ∈ uses types) {function : NodeId} {name param : String}
    (hkernel : kernel? u.2 = some (function, name, param)) (kind : TextureKind) :
    type.name ∉ Text.words (Lowering.globalName kind name param) := by
  obtain ⟨hcontext, named, hparam, rfl⟩ := kernel?_eq_some hkernel
  have hname := Lowering.globalName_isName kind (h.function u hu _ _ _ hcontext)
    (h.param u hu named hparam)
  rw [Text.words_of_isWord (Or.inl hname), List.mem_singleton]
  obtain ⟨n, hn⟩ := h.made type htype
  rw [hn]
  exact typeName_ne_globalName _ _ _ _ _

/-- **The line of a variable** spells the name of its type. -/
theorem mem_globalLine (h : Known doc types) (htype : type ∈ types)
    {u : Declared × Occurrence} (hu : u ∈ uses types) {function : NodeId} {name param : String}
    (hkernel : kernel? u.2 = some (function, name, param))
    (hentry : entry ∈ globalLine doc u.1 function name param) (he : entry.2 = type.name) :
    u.1 = type := by
  have hmem := mem_spelled h.newline hentry (he ▸ h.isName htype)
  have hwords := h.ne_vocabulary htype u.1.signature.kind u.1.signature.mode
  obtain ⟨-, hsemicolon⟩ := h.ne_punct htype
  have hglobal := h.ne_globalName htype hu hkernel u.1.signature.kind
  rw [he] at hmem
  simp only [List.flatMap_cons, List.flatMap_nil, Piece.words, List.mem_append, List.mem_cons,
    List.not_mem_nil, or_false, hsemicolon, hwords.2.2.1, false_or, hglobal] at hmem
  exact h.mem_words_name htype (Lowering.mem_uses.mp hu).1 hmem

/-- **The line of a binding** spells the name of its type and that of the parameter. -/
theorem mem_bindLine (h : Known doc types) (htype : type ∈ types)
    {u : Declared × Occurrence} (hu : u ∈ uses types) {function : NodeId} {name param : String}
    (hkernel : kernel? u.2 = some (function, name, param))
    (hentry : entry ∈ bindLine doc u.1 function name param) (he : entry.2 = type.name) :
    u.1 = type ∨ type.name = param := by
  have hmem := mem_spelled h.newline hentry (he ▸ h.isName htype)
  have hwords := h.ne_vocabulary htype u.1.signature.kind u.1.signature.mode
  obtain ⟨-, hsemicolon⟩ := h.ne_punct htype
  have hglobal := h.ne_globalName htype hu hkernel u.1.signature.kind
  obtain ⟨-, named, hparam, rfl⟩ := kernel?_eq_some hkernel
  rw [he] at hmem
  simp only [List.flatMap_cons, List.flatMap_nil, Piece.words, List.mem_append, List.mem_cons,
    List.not_mem_nil, or_false, hsemicolon, hwords.2.2.2.1, false_or, hglobal,
    Text.words_of_isWord (Or.inl (h.param u hu named hparam))] at hmem
  exact hmem.imp_left (h.mem_words_name htype (Lowering.mem_uses.mp hu).1)

/-- **What stands for a use** spells the name of its type, or that of a kernel parameter. -/
theorem mem_replacement (h : Known doc types) (htype : type ∈ types)
    {u : Declared × Occurrence} (hu : u ∈ uses types)
    (hentry : entry ∈ replacement doc u.1 u.2) (he : entry.2 = type.name) :
    u.1 = type ∨ type.name ∈ (Part.form u.1 u.2).quoted doc := by
  unfold replacement at hentry
  unfold Part.quoted
  split at hentry
  · rename_i param hcontext hparam
    have hmem := mem_spelled h.newline hentry (he ▸ h.isName htype)
    have hwords := h.ne_vocabulary htype u.1.signature.kind u.1.signature.mode
    have hdims := h.ne_dims htype u.1.signature.dims.toNat
    rw [he] at hmem
    simp only [List.flatMap_cons, List.flatMap_nil, Piece.words, List.mem_append, List.mem_cons,
      List.not_mem_nil, or_false, hwords.2.1, false_or, hdims,
      Text.words_of_isWord (Or.inl (h.param u hu param hparam))] at hmem
    right
    dsimp only
    rw [hcontext, hparam, hmem]
    exact List.mem_singleton_self _
  · rw [List.mem_singleton.mp hentry] at he
    exact Or.inl (h.eq_of_name htype (Lowering.mem_uses.mp hu).1 he.symm)

/-- **A part that spells the name of a type** belongs to the type, or repeats the name from the
    file. -/
theorem type_of_spelled (h : Known doc types) (htype : type ∈ types) {part : Part}
    (hpart : part ∈ partsAt doc types id) (hown : ∀ x, part ≠ .own x)
    (hentry : entry ∈ part.spelling doc) (he : entry.2 = type.name) :
    part.type? = some type ∨ type.name ∈ part.quoted doc := by
  rcases mem_partsAt.mp hpart with ⟨other, hother, rfl⟩ | hpart | hpart | hpart
  · have hcases := h.mem_typeLine htype (List.mem_filter.mp hother).1 hentry he
    exact hcases.imp_left (congrArg some)
  · obtain ⟨-, u, hu, function, name, param, hkernel, -, rfl⟩ := mem_kernelParts.mp hpart
    exact Or.inl (congrArg some (h.mem_globalLine htype hu hkernel hentry he))
  · rcases mem_coreParts.mp hpart with ⟨u, hfind, rfl⟩ | ⟨rfl, -⟩
    · have hcases := h.mem_replacement htype (List.mem_of_find?_eq_some hfind) hentry he
      exact hcases.imp_left (congrArg some)
    · exact absurd rfl (hown id)
  · obtain ⟨-, u, hu, function, name, param, hkernel, -, rfl⟩ := mem_kernelParts.mp hpart
    rcases h.mem_bindLine htype hu hkernel hentry he with hsame | hsame
    · exact Or.inl (congrArg some hsame)
    · exact Or.inr (List.mem_singleton.mpr hsame)

end Known

end Weave

end KernelPrep
