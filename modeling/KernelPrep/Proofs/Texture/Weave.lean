/-
  KernelPrep.Proofs.Texture.Weave — the prepared file, token by token.

  What preparing a file does to it can be said without any edit: each token of the file is
  preceded by some tokens, stands for some tokens and is followed by some tokens, and all
  three are read off the document as it was loaded.

    before  the inclusion of the header, before the first significant token; the types whose
            earliest use lies in the construct at file scope that starts here; the variables
            of the textures of the kernel that starts here;
    body    the name of the type, or the macro of a kernel parameter, at the keyword of a
            use; nothing at the other tokens of a use; and elsewhere the token itself;
    after   the bindings of the textures of the kernel whose body starts here.

  Main definitions:
    * `Weave.Declared`, `Weave.declareAll` — the types, in the order of their discovery;
    * `Weave.uses`     — all uses, in source order, each with its type;
    * `Weave.before`, `Weave.body`, `Weave.after` — what stands around and in place of a token;
    * `Weave.spelling`, `Weave.text` — the prepared file.
-/
import KernelPrep.Proofs.Token.Spelling
import KernelPrep.Texture.Lowering

namespace KernelPrep

namespace Weave

/-! ## §1. Types and uses -/

/-- The tokens of new pieces. -/
def spelled (doc : Document) (pieces : List Piece) : Spelling :=
  pieces.flatMap (·.spell doc.newline)

/-- A type to be declared, with the use before whose construct it is declared. -/
structure Declared where
  signature : Signature
  texel : String
  name : String
  first : Occurrence
  refs : List Occurrence

/-- The type of a group, when the types `before` are declared already. -/
def declare? (doc : Document) (before : List Declared) (refs : List Occurrence) :
    Option Declared := do
  let first ← Lowering.earliest? refs
  let signature ← Signature.ofKeyword? (doc.tokens.textOf first.keyword)
  let count := before.countP (·.signature.kind == signature.kind)
  return {
    signature
    texel := " ".intercalate (first.texel.map doc.tokens.textOf)
    name := "__" ++ signature.kind.stem ++ "TypeName_" ++ toString count ++ "__"
    first
    refs }

/-- The types of all groups. -/
def declareAll (doc : Document) (groups : List (List Occurrence)) : List Declared :=
  groups.foldl (fun before refs => before ++ (declare? doc before refs).toList) []

/-- All uses of the types, in source order. -/
def uses (types : List Declared) : List (Declared × Occurrence) :=
  (types.flatMap fun type => type.refs.map (type, ·)).mergeSort
    fun a b => a.2.keyword.index ≤ b.2.keyword.index

/-- The kernel definition of which the use is a parameter, with its name and that of the
    parameter. -/
def kernel? (use : Occurrence) : Option (NodeId × String × String) :=
  match use.context, use.param? with
  | .kernelParam function name true, some param => some (function, name, param.text)
  | _, _ => none

/-- The tokens that a use takes up: a kernel parameter takes its name along. -/
def cut (use : Occurrence) : TokenRange :=
  match use.context, use.param? with
  | .kernelParam .., some param => ⟨use.keyword, param.last⟩
  | _, _ => ⟨use.keyword, use.stop⟩

/-! ## §2. Around one token -/

/-- Whether the node starts with the token. -/
def startsAt (doc : Document) (node? : Option NodeId) (id : TokenId) : Bool :=
  (node?.bind doc.tree.tokens?).any (·.first == id)

/-- The inclusion of the header. -/
def includeLine (doc : Document) (id : TokenId) : Spelling :=
  if doc.tokens.ids.find? doc.tokens.isSignificant = some id then
    spelled doc [.punct .hash, .symbol "include", .space, .string doc.config.prologue, .eol]
  else []

/-- The declaration of a type. -/
def typeLine (doc : Document) (type : Declared) : Spelling :=
  spelled doc (Lowering.typePieces doc.config.vocabulary type.signature type.texel type.name)

/-- The types whose earliest use lies in the construct that starts with the token. -/
def typeLines (doc : Document) (types : List Declared) (id : TokenId) : Spelling :=
  (types.filter fun type =>
    startsAt doc (doc.tree.container? type.first.node) id).flatMap (typeLine doc)

/-- Lines for the textures of kernel definitions, where `mark` is the node of the kernel that
    starts with the token. -/
def kernelLines (doc : Document) (mark : NodeId → Option NodeId)
    (line : Declared → NodeId → String → String → Spelling) (uses : List (Declared × Occurrence))
    (id : TokenId) : Spelling :=
  if doc.config.platform.bindsGlobals then
    uses.flatMap fun (type, use) =>
      match kernel? use with
      | some (function, name, param) =>
        if startsAt doc (mark function) id then line type function name param else []
      | none => []
  else []

/-- The variable for a kernel parameter. -/
def globalLine (doc : Document) (type : Declared) (_ : NodeId) (function param : String) :
    Spelling :=
  let kind := type.signature.kind
  spelled doc [.call (doc.config.vocabulary.globalWord kind)
    [type.name, Lowering.globalName kind function param], .punct .semicolon, .eol]

/-- The binding of a kernel parameter, indented like the body. -/
def bindLine (doc : Document) (type : Declared) (function : NodeId) (name param : String) :
    Spelling :=
  let kind := type.signature.kind
  let indent := ((Outline.functionBody? doc.tree function).map (Lowering.bodyIndent doc)).getD 0
  spelled doc [.eol, .indent indent, .call (doc.config.vocabulary.bindWord kind)
    [type.name, param, Lowering.globalName kind name param], .punct .semicolon]

/-- What stands for a use. -/
def replacement (doc : Document) (type : Declared) (use : Occurrence) : Spelling :=
  match use.context, use.param? with
  | .kernelParam .., some param =>
    spelled doc [.call (doc.config.vocabulary.paramWord type.signature.kind type.signature.mode)
      [toString type.signature.dims.toNat, param.text]]
  | _, _ => spelled doc [.symbol type.name]

/-! ## §3. The prepared file -/

/-- What stands before a token. -/
def before (doc : Document) (types : List Declared) (id : TokenId) : Spelling :=
  includeLine doc id ++ typeLines doc types id
    ++ kernelLines doc some (globalLine doc) (uses types) id

/-- What stands in place of a token, where `uses` are the uses rewritten; nothing does while
    the token stands for itself. -/
def core? (doc : Document) (uses : List (Declared × Occurrence)) (id : TokenId) :
    Option Spelling :=
  match uses.find? (·.2.keyword == id) with
  | some (type, use) => some (replacement doc type use)
  | none =>
    if uses.any fun (_, use) => (doc.tokens.range (cut use)).contains id then some [] else none

/-- What a token has become. -/
def body (doc : Document) (types : List Declared) (id : TokenId) : Spelling :=
  (core? doc (uses types) id).getD (doc.tokens.spells [id])

/-- What stands behind a token. -/
def after (doc : Document) (types : List Declared) (id : TokenId) : Spelling :=
  kernelLines doc (Outline.functionBody? doc.tree) (bindLine doc) (uses types) id

/-- The prepared file of a document whose uses of textures are `groups`. -/
def spelling (doc : Document) (groups : List (List Occurrence)) : Spelling :=
  let types := declareAll doc groups
  doc.tokens.ids.flatMap fun id => before doc types id ++ body doc types id ++ after doc types id

/-- The text of the prepared file. -/
def text (doc : Document) (groups : List (List Occurrence)) : String :=
  Spelling.text (spelling doc groups)

end Weave

end KernelPrep
