/-
  KernelPrep.Texture.Lowering — textures in the words of a platform.

  Lowering goes in three steps.  All uses of textures are found and grouped; a file in
  which one of them is malformed is not touched.  Then each group gets a type, declared
  before the construct at file scope that holds its earliest use.  At last every use, in
  source order, takes its platform form: the name of the type, or for a kernel parameter a
  word of the platform.  Where the platform needs it, a kernel definition also gets a
  variable at file scope and a binding at the top of its body for each texture it takes.

  Main definitions:
    * `TextureType`         — a declared type with its uses;
    * `Lowering`            — the state of the work;
    * `Lowering.run`        — the work on a document;
    * `Texture.pass`        — the pass.
-/
import KernelPrep.Pass.Basic
import KernelPrep.Texture.Occurrence

namespace KernelPrep

/-! ## §1. Results -/

/-- A variable at file scope that stands for a kernel parameter. -/
structure GlobalVar where
  function : String
  param : String
  name : String
deriving DecidableEq, Repr

/-- A declared type and where it is used. -/
structure TextureType where
  signature : Signature
  /-- The texel type, its words separated by one space; empty for a surface. -/
  texel : String
  name : String
  /-- The node of the declaration. -/
  declaration : NodeId
  refs : List Occurrence
  globals : List GlobalVar := []

/-- The variable that stands for a parameter of a kernel, among those of the given types. -/
def TextureType.globalVar? (types : List TextureType) (function param : String) :
    Option GlobalVar :=
  types.findSome? fun type =>
    type.globals.find? fun var => var.function == function && var.param == param

/-- The state of lowering a document. -/
structure Lowering where
  document : Document
  types : List TextureType := []
  /-- The kernel definitions with textures, by node, in source order. -/
  kernels : List (NodeId × KernelTextures) := []
  /-- The last binding put into each kernel. -/
  bindings : List (NodeId × NodeId) := []

/-- A step of lowering. -/
abbrev Lower := EStateM PassError Lowering

namespace Lowering

/-- An edit of the document as a step. -/
def edit {α : Type} (e : Edit α) : Lower α := fun state =>
  match e state.document with
  | .ok a document => .ok a { state with document }
  | .error error document => .error error { state with document }

/-- A part of the document that must be there. -/
def need {α : Type} (what : String) : Option α → Lower α
  | some a => pure a
  | none => throw (.internal what)

/-! ## §2. Declaring types -/

/-- The first of the uses on the lowest line. -/
def earliest? : List Occurrence → Option Occurrence
  | [] => none
  | found :: rest =>
    -- on equal lines the first one found stays
    match earliest? rest with
    | none => some found
    | some other => some (if other.line < found.line then other else found)

/-- The name of the next type of a kind: types are counted separately for each kind. -/
def typeName (types : List TextureType) (kind : TextureKind) : String :=
  let count := types.countP (·.signature.kind == kind)
  "__" ++ kind.stem ++ "TypeName_" ++ toString count ++ "__"

/-- The declaration of a type, as a line. -/
def typePieces (v : Vocabulary) (signature : Signature) (texel name : String) : List Piece :=
  let dims := toString signature.dims.toNat
  let args := match signature.kind with
    | .texture => [texel, dims, v.readMode signature.mode]
    | .surface => [dims]
  [.punct .typedef, .space, .call (v.typeWord signature.kind) args, .space, .symbol name,
    .punct .semicolon, .eol]

/-- Declare the type of a group before the construct that holds its earliest use. -/
def declareType (refs : List Occurrence) : Lower Unit := do
  -- the type is spelled as in the earliest use; the others of the group are not looked at
  let first ← need "empty occurrence group" (earliest? refs)
  let doc := (← get).document
  let keyword := doc.tokens.textOf first.keyword
  let signature ← need "not a texture keyword" (Signature.ofKeyword? keyword)
  let texel := " ".intercalate (first.texel.map doc.tokens.textOf)
  match doc.tree.container? first.node with
  | none => throw ⟨first.line, .noContainer keyword⟩
  | some container =>
    let name := typeName (← get).types signature.kind
    let run ← edit (Edit.newRun first.line (typePieces doc.config.vocabulary signature texel name))
    let declaration ← edit (Edit.insertBefore container run)
    modify fun state =>
      { state with types := state.types ++ [{ signature, texel, name, declaration, refs }] }

/-! ## §3. Kernel parameters -/

/-- The name of the variable that stands for a kernel parameter. -/
def globalName (kind : TextureKind) (function param : String) : String :=
  "__" ++ kind.stem ++ "Var_" ++ function ++ "_" ++ param ++ "__"

/-- Declare the variable for a kernel parameter before the kernel. -/
def declareGlobal (type : TextureType) (function : NodeId) (global : String) (line : Nat) :
    Lower Unit := do
  let doc := (← get).document
  let container ← need "kernel is not attached to the tree" (doc.tree.container? function)
  let word := doc.config.vocabulary.globalWord type.signature.kind
  let run ← edit (Edit.newRun line [.call word [type.name, global], .punct .semicolon, .eol])
  let _ ← edit (Edit.insertBefore container run)

/-- The indentation of bindings in a body without statements. -/
def defaultIndent : Nat := 4

/-- The width of the blanks before the first construct of a body that no pass put there. -/
def bodyIndent (doc : Document) (body : NodeId) : Nat :=
  -- bindings made before are nodes of their own kind, and would shift the indentation
  let first? := ((doc.tree.children body).filter
    fun child => doc.tree.kind? child != some .userTokens).findSome? doc.tree.tokens?
  match first?.bind fun range => doc.tokens.prev? range.first with
  | some id =>
    if doc.tokens.kind? id = some .whitespace then (doc.tokens.textOf id).utf8ByteSize
    else defaultIndent
  | none => defaultIndent

/-- Bind a parameter to its variable at the top of the kernel's body, behind the bindings
    made before. -/
def bindLocal (type : TextureType) (function : NodeId) (param global : String) (line : Nat) :
    Lower Unit := do
  let doc := (← get).document
  let body ← need "kernel definition has no body" (Outline.functionBody? doc.tree function)
  let word := doc.config.vocabulary.bindWord type.signature.kind
  let run ← edit (Edit.newRun line
    [.eol, .indent (bodyIndent doc body), .call word [type.name, param, global],
      .punct .semicolon])
  let node ← match (← get).bindings.lookup function with
    | some last => edit (Edit.insertAfter last run)
    | none => edit (Edit.insertFirstChild body run)
  modify fun state => { state with bindings := (function, node) :: state.bindings }

/-- Add a parameter to the entry of its kernel, which is made when it is the first. -/
def addParam (function : NodeId) (name : String) (param : BoundParam) :
    List (NodeId × KernelTextures) → List (NodeId × KernelTextures)
  | [] => [(function, { name, params := [param] })]
  | (id, kernel) :: rest =>
    if id = function then (id, { kernel with params := kernel.params ++ [param] }) :: rest
    else (id, kernel) :: addParam function name param rest

/-- Record the variable for a parameter with the type of the given index. -/
def addGlobal (index : Nat) (var : GlobalVar) (types : List TextureType) : List TextureType :=
  types.modify index fun type => { type with globals := type.globals ++ [var] }

/-- Bind a parameter of a kernel definition as the platform needs it, and record it. -/
def bindParam (index : Nat) (type : TextureType) (function : NodeId) (name param : String)
    (line : Nat) : Lower Unit := do
  let signature := type.signature
  let binding ← if (← get).document.config.platform.bindsGlobals then do
      let global := globalName signature.kind name param
      -- the binding names the variable, which has to stand before it
      declareGlobal type function global line
      bindLocal type function param global line
      modify fun state =>
        { state with
          types := addGlobal index { function := name, param, name := global } state.types }
      pure global
    else pure param
  modify fun state =>
    { state with
      kernels := addParam function name
        { binding, kind := signature.kind, dims := signature.dims, mode := signature.mode }
        state.kernels }

/-! ## §4. All uses -/

/-- Give one use of the type of the given index its platform form. -/
def lowerOne (index : Nat) (found : Occurrence) : Lower Unit := do
  let state ← get
  let type ← need "no such texture type" state.types[index]?
  match found.context with
  | .kernelParam function name definition =>
    let param ← need "kernel parameter without a name" found.param?
    let signature := type.signature
    let word := state.document.config.vocabulary.paramWord signature.kind signature.mode
    let run ← edit (Edit.newRun found.line
      [.call word [toString signature.dims.toNat, param.text]])
    -- the name goes with the type: the platform's word takes it as an argument
    edit (Edit.replaceTokens ⟨found.keyword, param.last⟩ (some run))
    if definition then bindParam index type function name param.text found.line
  | .declaration | .param =>
    let run ← edit (Edit.newRun found.line [.symbol type.name])
    edit (Edit.replaceTokens ⟨found.keyword, found.stop⟩ (some run))

/-- All uses of the given types with the indices of their types, in source order. -/
def inSourceOrder (types : List TextureType) : List (Nat × Occurrence) :=
  (types.zipIdx.flatMap fun (type, index) => type.refs.map (index, ·)).mergeSort
    fun a b => a.2.keyword.index ≤ b.2.keyword.index

/-- Find, declare and lower all textures of the document. -/
def lowerAll [ContentHash] : Lower Unit := do
  match Occurrence.discover (← get).document with
  | .error error => throw error
  | .ok groups =>
    groups.forM declareType
    (inSourceOrder (← get).types).forM fun (index, found) => lowerOne index found

/-- Lower all textures of a document.  The state tells how far an attempt that failed has
    come. -/
def run [ContentHash] (document : Document) : Except PassError Unit × Lowering :=
  match lowerAll { document } with
  | .ok () state => (.ok (), state)
  | .error error state => (.error error, state)

/-- The binding table of the kernels lowered so far. -/
def table (state : Lowering) : List KernelTextures := state.kernels.map (·.2)

end Lowering

namespace Texture

/-- The pass that lowers textures.  With a path configured, it yields the binding table. -/
def pass [ContentHash] (config : Config) : Pass where
  name := "texture"
  run := fun document =>
    match Lowering.run document with
    | (.ok (), state) =>
      .ok (config.tablePath?.map ({ path := ·, kernels := state.table })) state.document
    | (.error error, state) => .error error state.document

end Texture

end KernelPrep
