/-
  KernelPrep.Texture.Occurrence — where textures are used.

  Textures are looked for among the own tokens of statements, type definitions and
  parameter lists, node by node in pre-order and from left to right in each.  A texture
  keyword is followed by its texel type in angle brackets, a surface keyword stands alone;
  in a parameter list the parameter's name follows.  Occurrences form one group when one hash
  is made of the hashes of their keyword and texel type.

  Main definitions:
    * `Occurrence`           — one use of a texture type;
    * `Occurrence.scan`      — the uses in one node;
    * `Occurrence.discover`  — all uses in a document, by group.
-/
import KernelPrep.Document
import KernelPrep.Outline.Function

namespace KernelPrep

/-- The construct in which a texture is used. -/
inductive Occurrence.Context where
  /-- A statement or type definition. -/
  | declaration
  /-- A parameter of a function that is no kernel. -/
  | param
  /-- A parameter of a kernel, of which `definition` tells whether it has a body. -/
  | kernelParam (function : NodeId) (name : String) (definition : Bool)
deriving DecidableEq, Repr

/-- The name of a parameter. -/
structure Occurrence.Param where
  token : TokenId
  text : String
  /-- The last token of the parameter. -/
  last : TokenId
deriving DecidableEq, Repr

/-- One use of a texture type. -/
structure Occurrence where
  kind : TextureKind
  /-- The node in which it was found. -/
  node : NodeId
  line : Nat
  keyword : TokenId
  /-- The tokens of the texel type: none for a surface, two after `signed` or `unsigned`. -/
  texel : List TokenId
  /-- The last token of the type: the `>`, or the keyword of a surface. -/
  stop : TokenId
  context : Occurrence.Context
  param? : Option Occurrence.Param
deriving DecidableEq, Repr

namespace Occurrence

/-! ## §1. Types and names -/

/-- The words that need a basic type behind them. -/
def isSignWord (word : String) : Bool := word == "signed" || word == "unsigned"

/-- A texture type behind its keyword: its texel tokens, its last token, and the number of
    tokens it takes. -/
structure TypeTail where
  texel : List TokenId
  stop : TokenId
  length : Nat

/-- The `>` that closes a texel type. -/
def closeAngle (keyword : String) (texel : List TokenId) :
    List (TokenId × Token) → Except PassFault TypeTail
  | (id, token) :: _ =>
    if token.kind = .greater then .ok { texel, stop := id, length := texel.length + 2 }
    else .error (.missingCloseAngle keyword)
  | [] => .error (.missingCloseAngle keyword)

/-- The texel type in angle brackets that follows a texture keyword. -/
def texelType (keyword : String) : List (TokenId × Token) → Except PassFault TypeTail
  | [] => .error (.missingOpenAngle keyword)
  | (_, angle) :: tokens =>
    if angle.kind ≠ .less then .error (.missingOpenAngle keyword)
    else
      match tokens with
      | [] => .error (.missingTexelType keyword)
      | (id, word) :: rest =>
        if word.kind ≠ .symbol then .error (.missingTexelType keyword)
        -- `signed` and `unsigned` stand before a word, and never before one another
        else if isSignWord word.text then
          match rest with
          | [] => .error (.badSignedness word.text)
          | (id', word') :: rest =>
            if word'.kind ≠ .symbol then .error (.badSignedness word.text)
            else if isSignWord word'.text then .error (.badSignedness word'.text)
            else closeAngle keyword [id, id'] rest
        else closeAngle keyword [id] rest

/-- The parameter ahead, given its name and last token so far.  The name is the last symbol
    outside of parentheses and brackets before the `,` or `)` that ends the parameter. -/
def paramFrom (depth : Nat) (param : Param) : List (TokenId × Token) → Param
  | [] => param
  | (id, token) :: rest =>
    let onward := { param with last := id }
    match token.kind with
    | .lparen | .lbracket => paramFrom (depth + 1) onward rest
    -- an unmatched closer ends the parameter, a `]` as much as a `)`
    | .rparen | .rbracket => if depth = 0 then param else paramFrom (depth - 1) onward rest
    | .comma => if depth = 0 then param else paramFrom depth onward rest
    | .symbol =>
      if depth = 0 then paramFrom 0 { token := id, text := token.text, last := id } rest
      else paramFrom depth onward rest
    | _ => paramFrom depth onward rest

/-- The parameter that follows a type; it must start with a symbol. -/
def paramName (keyword : String) : List (TokenId × Token) → Except PassFault Param
  | [] => .error (.missingParamName keyword)
  | (id, token) :: rest =>
    if token.kind = .symbol then
      .ok (paramFrom 0 { token := id, text := token.text, last := id } rest)
    else .error (.missingParamName keyword)

/-! ## §2. One node -/

/-- The context of a parameter list. -/
def paramContext (doc : Document) (node : NodeId) : Except PassError Context :=
  match doc.tree.parent? node with
  | none => .ok .param
  | some function =>
    if Outline.isKernel doc.tokens doc.tree function then
      match Outline.functionName? doc.tokens doc.tree function with
      | some name =>
        .ok (.kernelParam function (doc.tokens.textOf name)
          (doc.tree.kind? function == some .functionDefn))
      | none =>
        let line := ((doc.tree.tokens? function).map (doc.tokens.lineOf ·.first)).getD 0
        .error ⟨line, .noFunctionName⟩
    else .ok .param

/-- What the token says if it is a texture keyword. -/
def signature? (token : Token) : Option Signature :=
  if token.kind = .symbol then Signature.ofKeyword? token.text else none

/-- The use of a texture at a keyword, by the tokens behind it, with the number of those
    that belong to its type. -/
def read (doc : Document) (node : NodeId) (isParams : Bool) (kind : TextureKind)
    (id : TokenId) (keyword : Token) (rest : List (TokenId × Token)) :
    Except PassError (Occurrence × Nat) := do
  let tail ← match kind with
    | .texture => (texelType keyword.text rest).mapError (⟨keyword.line, ·⟩)
    | .surface => .ok { texel := [], stop := id, length := 0 }
  let base : Occurrence :=
    { kind, node, line := keyword.line, keyword := id, texel := tail.texel, stop := tail.stop,
      context := .declaration, param? := none }
  if isParams then
    let param ← (paramName keyword.text (rest.drop tail.length)).mapError (⟨keyword.line, ·⟩)
    let context ← paramContext doc node
    return ({ base with context, param? := some param }, tail.length)
  else return (base, tail.length)

/-- The uses among the own tokens of a node, the first `skip` of which belong to a type
    already found. -/
def scanFrom (doc : Document) (node : NodeId) (isParams : Bool) :
    Nat → List (TokenId × Token) → Except PassError (List Occurrence)
  | _, [] => .ok []
  | skip + 1, _ :: rest => scanFrom doc node isParams skip rest
  | 0, (id, token) :: rest =>
    match signature? token with
    | none => scanFrom doc node isParams 0 rest
    | some signature => do
      let (found, length) ← read doc node isParams signature.kind id token rest
      return found :: (← scanFrom doc node isParams length rest)

/-- The uses in a node, from left to right. -/
def scan (doc : Document) (node : NodeId) : Except PassError (List Occurrence) :=
  let tokens := (doc.ownTokens node).filterMap fun id => (doc.tokens.get? id).map (id, ·)
  scanFrom doc node (doc.tree.kind? node == some .functionParams) 0 tokens

/-! ## §3. A whole document -/

/-- Whether nodes of the kind are searched. -/
def isSearched : NodeKind → Bool
  | .statement | .functionParams | .typedef => true
  | _ => false

/-- The nodes to search, in order. -/
def candidates (doc : Document) : List NodeId :=
  doc.tree.preOrder.filter fun id => (doc.tree.kind? id).any isSearched

/-- What the uses of one type have in common: the hash of keyword and texel type. -/
def key [ContentHash] (list : TokenList) (found : Occurrence) : UInt64 :=
  ContentHash.combine ((found.keyword :: found.texel).map fun id => (list.hash? id).getD 0)

/-- Add a use to the group of its key, or else as a new group behind the others. -/
def addToGroup [ContentHash] (list : TokenList) (found : Occurrence) :
    List (List Occurrence) → List (List Occurrence)
  | [] => [[found]]
  | group :: groups =>
    if (group.head?.map (key list)) = some (key list found) then (group ++ [found]) :: groups
    else group :: addToGroup list found groups

/-- All uses in a document, by group, in the order in which they were found. -/
def discover [ContentHash] (doc : Document) : Except PassError (List (List Occurrence)) := do
  let found ← (candidates doc).mapM (scan doc)
  return found.flatten.foldl (fun groups occurrence => addToGroup doc.tokens occurrence groups) []

end Occurrence

end KernelPrep
