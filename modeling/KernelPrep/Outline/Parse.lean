/-
  KernelPrep.Outline.Parse — reading the outline of a file.

  The outline records only what passes need: directives, type definitions, structs,
  functions with their parameter lists, blocks and statements.  Expressions are skipped,
  but their delimiters must match.

  The readers of nested constructs call each other.  Each round of calls reads a leaf, so
  a bound on the depth of calls follows from the number of leaves ahead; `Outline.parse`
  supplies it and no caller sees it.

  Main definitions:
    * `item`             — one construct at file scope;
    * `Parsed`           — the items read, the nodes begun and the error met;
    * `parse`            — the outline of a sequence of leaves;
    * `TokenList.parse`  — the tree of a file without errors.
-/
import KernelPrep.Outline.Feed
import KernelPrep.Outline.Skeleton

namespace KernelPrep.Outline

/-! ## §1. Constructs without nested ones -/

/-- A `#` and the leaves up to the end of its logical line. -/
def directive : Reading Skeleton := do
  let first ← expect .hash
  modify fun feed => feed.bumpWhile (!·.startsLine)
  openNode
  return .leaf .directive (← rangeFrom first)

/-- A token that stands alone, such as a stray `;`. -/
def loneToken : Reading Skeleton := do
  let leaf ← firstLeaf .semicolon
  bump
  openNode
  return .leaf .token (.single leaf.id)

/-- A token of kind `expected` as a node of its own. -/
def tokenNode (kind : NodeKind) (expected : TokenKind) : Reading Skeleton := do
  let leaf ← expect expected
  openNode
  return .leaf kind (.single leaf.id)

/-- `extern`, a string and `{` are next. -/
def atLinkageBlock (feed : Feed) : Bool :=
  feed.rest.head?.any (·.text == "extern")
    && feed.kindAt? 1 == some .string && feed.kindAt? 2 == some .lbrace

/-- `struct`, perhaps a tag, and `{` are next. -/
def atStructBody (feed : Feed) : Bool :=
  feed.kindAt? 0 == some .struct
    && (feed.kindAt? 1 == some .lbrace
      || (feed.kindAt? 1 == some .symbol && feed.kindAt? 2 == some .lbrace))

/-- `struct`, a tag and `;` are next. -/
def atStructDecl (feed : Feed) : Bool :=
  feed.kindAt? 1 == some .symbol && feed.kindAt? 2 == some .semicolon

/-- `struct Tag;`. -/
def structDecl : Reading Skeleton := do
  let first ← expect .struct
  openNode
  let tag ← tokenNode .structTag .symbol
  let _ ← expect .semicolon
  return .node .structDecl (← rangeFrom first) [tag]

/-- The declarators behind the body of a struct, through the `;`.  Each word outside of
    groups and initialisers is a declared name.  `pending` lists the delimiters that close
    the groups entered. -/
def declaratorsFrom (opened : Nat) (pending : List TokenKind) (initialiser : Bool)
    (last? : Option Leaf) : List Leaf → EStateM.Result ParseError Feed (List Skeleton)
  | [] => failAtEnd (pending.headD .semicolon) { rest := [], last?, opened }
  | leaf :: rest =>
    let feed : Feed := { rest := leaf :: rest, last?, opened }
    if pending.isEmpty && leaf.kind.isCloser then
      failHere (.unexpected leaf.kind .semicolon) feed
    else if !pending.isEmpty || leaf.kind.isOpener then
      match nest pending leaf.kind with
      | .error fault => failHere fault feed
      | .ok pending => declaratorsFrom opened pending initialiser (some leaf) rest
    else
      match leaf.kind with
      | .semicolon => .ok [] { rest, last? := some leaf, opened }
      | .symbol =>
        if initialiser then declaratorsFrom opened [] true (some leaf) rest
        else
          match declaratorsFrom (opened + 1) [] false (some leaf) rest with
          | .ok names feed => .ok (.leaf .structName (.single leaf.id) :: names) feed
          | .error error feed => .error error feed
      | .assign => declaratorsFrom opened [] true (some leaf) rest
      | .comma => declaratorsFrom opened [] false (some leaf) rest
      | _ => declaratorsFrom opened [] initialiser (some leaf) rest

/-- The declarators behind the body of a struct. -/
def declarators : Reading (List Skeleton) := fun feed =>
  declaratorsFrom feed.opened [] false feed.last? feed.rest

/-- The words and groups between a parameter list and the token that ends the head of the
    function.  `pending` lists the delimiters that close the groups entered. -/
def qualifiersFrom (opened : Nat) (terminator : TokenId) (pending : List TokenKind)
    (last? : Option Leaf) : List Leaf → EStateM.Result ParseError Feed Unit
  | [] =>
    match pending with
    | [] => .ok () { rest := [], last?, opened }
    | expected :: _ => failAtEnd expected { rest := [], last?, opened }
  | leaf :: rest =>
    let feed : Feed := { rest := leaf :: rest, last?, opened }
    if pending.isEmpty && leaf.id = terminator then .ok () feed
    else if pending.isEmpty && leaf.kind != .lparen && leaf.kind != .lbracket then
      qualifiersFrom opened terminator [] (some leaf) rest
    else
      match nest pending leaf.kind with
      | .error fault => failHere fault feed
      | .ok pending => qualifiersFrom opened terminator pending (some leaf) rest

/-- The words and groups up to the token that ends the head of a function. -/
def qualifiers (terminator : TokenId) : Reading Unit := fun feed =>
  qualifiersFrom feed.opened terminator [] feed.last? feed.rest

/-- Words that start a declaration which goes on behind its braces. -/
def aggregateWords : List String := ["enum", "union", "struct", "class"]

/-! ## §2. Constructs that nest -/

mutual

/-- Statements in braces. -/
def block : Nat → Reading Skeleton
  | 0 => failAtEnd .rbrace
  | depth + 1 => do
    let first ← expect .lbrace
    openNode
    let children ← blockItems depth
    let _ ← expect .rbrace
    return .node .statementBlock (← rangeFrom first) children

/-- What stands in a block, up to its `}`. -/
def blockItems : Nat → Reading (List Skeleton)
  | 0 => failAtEnd .rbrace
  | depth + 1 => do
    match ← peekKind? with
    | none => failAtEnd .rbrace
    | some .rbrace => return []
    | some kind =>
      let child ← match kind with
        | .hash => directive
        | .lbrace => block depth
        | .semicolon => loneToken
        | .rparen | .rbracket => failHere (.unexpected kind .rbrace)
        | _ => statement depth
      return child :: (← blockItems depth)

/-- Tokens through a `;`, up to the `}` around them or the end of the file. -/
def statement : Nat → Reading Skeleton
  | 0 => failAtEnd .rbrace
  | depth + 1 => do
    let first ← firstLeaf .semicolon
    openNode
    let blocks ← statementTail depth
      (first.kind == .struct || aggregateWords.contains first.text)
    return .node .statement (← rangeFrom first) blocks

/-- The rest of a statement, with the blocks in it.  The statement ends behind a block
    unless `goesOn`, which an `=` sets. -/
def statementTail : Nat → Bool → Reading (List Skeleton)
  | 0, _ => failAtEnd .rbrace
  | depth + 1, goesOn => do
    match ← peekKind? with
    | none | some .rbrace => return []
    | some kind =>
      match kind with
      | .semicolon => do bump; return []
      | .lbrace => do
        let child ← block depth
        if goesOn then return child :: (← statementTail depth goesOn) else return [child]
      | .lparen | .lbracket => do skipGroup; statementTail depth goesOn
      | .rparen | .rbracket => failHere (.unbalanced kind)
      | .assign => do bump; statementTail depth true
      | _ => do bump; statementTail depth goesOn

end

/-- A struct through its closing brace: `struct`, perhaps a tag, and a block. -/
def structHead (depth : Nat) : Reading (Leaf × List Skeleton) := do
  let first ← expect .struct
  openNode
  let tag ← if (← peekKind?) = some .symbol then
      pure [← tokenNode .structTag .symbol]
    else pure []
  let body ← block depth
  return (first, tag ++ [body])

/-- A type definition.  A struct with a body in it is a child of its own. -/
def typedefItem (depth : Nat) : Reading Skeleton := do
  let first ← expect .typedef
  openNode
  let children ← if atStructBody (← get) then do
      let (structFirst, parts) ← structHead depth
      let defn := .node .structDefn (← rangeFrom structFirst) parts
      let names ← declarators
      pure (defn :: names)
    -- without a body it is read as a statement that goes on behind braces
    else statementTail depth true
  return .node .typedef (← rangeFrom first) children

/-- A function whose shape is known: the name with what precedes it, the parameter list,
    qualifiers, and a body or `;`. -/
def functionItem (depth : Nat) (params terminator : TokenId) (body : Bool) :
    Reading Skeleton := do
  let first ← firstLeaf .lparen
  openNode
  -- the lookahead found the `(`: what precedes it is passed unread
  modify fun feed => feed.bumpWhile (·.id != params)
  skipGroup
  let close? := (← get).last?
  openNode
  let list := .leaf .functionParams ⟨params, (close?.map (·.id)).getD params⟩
  qualifiers terminator
  if body then do
    let child ← block depth
    return .node .functionDefn (← rangeFrom first) [list, child]
  else do
    let _ ← expect .semicolon
    return .node .functionDecl (← rangeFrom first) [list]

/-- A function, or else a statement. -/
def declaration (depth : Nat) : Reading Skeleton := do
  match classify (← get).rest with
  | .function params terminator body => functionItem depth params terminator body
  | .statement => statement depth

/-- A struct without a body, a struct with one, or a declaration that starts with
    `struct`. -/
def structItem (depth : Nat) : Reading Skeleton := do
  let feed ← get
  -- what merely starts with `struct`, such as `struct T f();`, is neither of the two
  if atStructDecl feed then structDecl
  else if atStructBody feed then do
    let (first, parts) ← structHead depth
    let names ← declarators
    return .node .structDefn (← rangeFrom first) (parts ++ names)
  else declaration depth

mutual

/-- One construct at file scope, a leaf being ahead. -/
def item : Nat → Reading Skeleton
  | 0 => failAtEnd .rbrace
  | depth + 1 => do
    if atLinkageBlock (← get) then linkageBlock depth
    else
      match ← peekKind? with
      | some .hash => directive
      | some .typedef => typedefItem depth
      | some .struct => structItem depth
      | some .semicolon => loneToken
      | some .rbrace => failHere (.unbalanced .rbrace)
      | some .rparen => failHere (.unbalanced .rparen)
      | some .rbracket => failHere (.unbalanced .rbracket)
      | _ => declaration depth

/-- `extern`, a string, and constructs of file scope in braces. -/
def linkageBlock : Nat → Reading Skeleton
  | 0 => failAtEnd .rbrace
  | depth + 1 => do
    let first ← firstLeaf .lbrace
    openNode
    bump
    let _ ← expect .string
    let _ ← expect .lbrace
    let children ← linkageItems depth
    let _ ← expect .rbrace
    return .node .linkageBlock (← rangeFrom first) children

/-- The constructs in a linkage block, up to its `}`. -/
def linkageItems : Nat → Reading (List Skeleton)
  | 0 => failAtEnd .rbrace
  | depth + 1 => do
    match ← peekKind? with
    | none => failAtEnd .rbrace
    | some .rbrace => return []
    | some _ =>
      let child ← item depth
      return child :: (← linkageItems depth)

end

/-! ## §3. Whole files -/

/-- The outcome of reading a file: the items completed, the number of nodes begun, and the
    error that stopped the reading, if one did. -/
structure Parsed where
  items : List Skeleton := []
  opened : Nat := 0
  error? : Option ParseError := none

/-- A depth of calls that reading `n` leaves does not exceed. -/
def depthBound (n : Nat) : Nat := 8 * (n + 1)

/-- Read items until the leaves or the allowed number of items run out. -/
def parseFrom : Nat → Feed → Parsed
  | 0, feed => { opened := feed.opened }
  | count + 1, feed =>
    if feed.rest.isEmpty then { opened := feed.opened }
    else
      -- an item that fails ends the reading, and those before it are kept
      match item (depthBound feed.rest.length) feed with
      | .error error feed => { opened := feed.opened, error? := some error }
      | .ok child feed =>
        let parsed := parseFrom count feed
        { parsed with items := child :: parsed.items }

/-- The outline of a sequence of leaves.  Each item has at least one leaf. -/
def parse (leaves : List Leaf) : Parsed := parseFrom leaves.length { rest := leaves }

end KernelPrep.Outline

namespace KernelPrep

/-- The tree of the items that were completed. -/
def Outline.Parsed.tree (parsed : Outline.Parsed) (whole? : Option TokenRange) : NodeTree :=
  NodeTree.ofSkeletons whole? parsed.items

/-- The number of nodes made, completed or not, with the root. -/
def Outline.Parsed.nodeCount (parsed : Outline.Parsed) : Nat := parsed.opened + 1

/-- The tree of a file that has an outline. -/
def TokenList.parse (list : TokenList) : Except ParseError NodeTree :=
  let parsed := Outline.parse list.leaves
  match parsed.error? with
  | some error => .error error
  | none => .ok (parsed.tree list.whole?)

end KernelPrep
