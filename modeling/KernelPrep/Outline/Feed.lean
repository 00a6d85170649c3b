/-
  KernelPrep.Outline.Feed — the leaves still to be read, and steps on them.

  Reading threads a feed: the leaves ahead, the leaf read last, and how many nodes were
  begun.  A reading that fails keeps its feed, so the number of nodes begun is known also
  of a file without an outline.

  Main definitions:
    * `Feed`       — what is ahead and behind;
    * `Reading`    — a step that reads leaves and may fail;
    * `expect`     — read a leaf of a given kind;
    * `skipGroup`  — read one balanced group of delimiters;
    * `classify`   — tell a function from another declaration by looking ahead.
-/
import KernelPrep.Outline.Error
import KernelPrep.Outline.Leaf

namespace KernelPrep.Outline

/-! ## §1. Feeds -/

/-- The leaves ahead, the leaf read last and the number of nodes begun. -/
structure Feed where
  rest : List Leaf
  last? : Option Leaf := none
  opened : Nat := 0

namespace Feed

/-- The line that an error at the next leaf is reported for: that leaf's, or at the end the
    last leaf's. -/
def line (feed : Feed) : Nat := ((feed.rest.head?.or feed.last?).map (·.line)).getD 0

/-- The line of the leaf read last. -/
def lastLine (feed : Feed) : Nat := (feed.last?.map (·.line)).getD 0

/-- The kind of the leaf `n` places ahead. -/
def kindAt? (feed : Feed) (n : Nat) : Option TokenKind := feed.rest[n]?.map (·.kind)

/-- Read one leaf, if there is one. -/
def bump (feed : Feed) : Feed :=
  match feed.rest with
  | [] => feed
  | leaf :: rest => { feed with rest, last? := some leaf }

/-- Read the leaves up to the first that does not satisfy `p`. -/
def bumpWhile (feed : Feed) (p : Leaf → Bool) : Feed :=
  { feed with
    rest := feed.rest.dropWhile p
    last? := ((feed.rest.takeWhile p).getLast?).or feed.last? }

end Feed

/-! ## §2. Readings -/

/-- A step that reads leaves and may fail. -/
abbrev Reading := EStateM ParseError Feed

/-- Fail at the next leaf. -/
def failHere {α : Type} (fault : ParseFault) : Reading α :=
  fun feed => .error ⟨feed.line, fault⟩ feed

/-- Fail because the file ends where `expected` is needed. -/
def failAtEnd {α : Type} (expected : TokenKind) : Reading α :=
  fun feed => .error ⟨feed.lastLine, .unexpectedEnd expected⟩ feed

/-- The kind of the next leaf. -/
def peekKind? : Reading (Option TokenKind) := fun feed => .ok (feed.kindAt? 0) feed

/-- Read one leaf. -/
def bump : Reading Unit := modify Feed.bump

/-- The next leaf, which is not read; the file must not end here. -/
def firstLeaf (expected : TokenKind) : Reading Leaf := fun feed =>
  match feed.rest with
  | [] => failAtEnd expected feed
  | leaf :: _ => .ok leaf feed

/-- Read the next leaf, which must be of the kind `expected`. -/
def expect (expected : TokenKind) : Reading Leaf := fun feed =>
  match feed.rest with
  | [] => failAtEnd expected feed
  | leaf :: _ =>
    if leaf.kind = expected then .ok leaf feed.bump
    else failHere (.unexpected leaf.kind expected) feed

/-- Count one more node as begun. -/
def openNode : Reading Unit := modify fun feed => { feed with opened := feed.opened + 1 }

/-- The range from `first` through the leaf read last. -/
def rangeFrom (first : Leaf) : Reading TokenRange := fun feed =>
  .ok ⟨first.id, (feed.last?.getD first).id⟩ feed

/-! ## §3. Groups -/

/-- What is left to be closed after a leaf of the given kind.  `pending` lists the
    delimiters that are to close what is open, innermost first. -/
def nest (pending : List TokenKind) (kind : TokenKind) : Except ParseFault (List TokenKind) :=
  match kind.closer? with
  | some closer => .ok (closer :: pending)
  | none =>
    if kind.isCloser then
      -- a closer is compared with the innermost opener only
      match pending with
      | [] => .error (.unbalanced kind)
      | expected :: outer =>
        if expected = kind then .ok outer else .error (.unexpected kind expected)
    else .ok pending

/-- Read leaves until nothing is left to be closed, one leaf at least. -/
def groupFrom (opened : Nat) (pending : List TokenKind) (last? : Option Leaf) :
    List Leaf → EStateM.Result ParseError Feed Unit
  | [] => failAtEnd (pending.headD .rparen) { rest := [], last?, opened }
  | leaf :: rest =>
    match nest pending leaf.kind with
    | .error fault => .error ⟨leaf.line, fault⟩ { rest := leaf :: rest, last?, opened }
    | .ok [] => .ok () { rest, last? := some leaf, opened }
    | .ok pending => groupFrom opened pending (some leaf) rest

/-- Read one group: an opening delimiter through the one that closes it. -/
def skipGroup : Reading Unit := fun feed => groupFrom feed.opened [] feed.last? feed.rest

/-! ## §4. Telling functions from other declarations -/

/-- Words whose parenthesised argument is not a parameter list. -/
def attributeWords : List String :=
  ["__attribute__", "__declspec", "__launch_bounds__", "__align__", "_Alignas", "alignas",
    "__asm__", "asm"]

/-- Whether a `(` opens a parameter list, by the leaf before it and the one after it.  It
    follows the declared name, and `(*` and `(^` declare pointers. -/
def opensParams (before? after? : Option Leaf) : Bool :=
  match before? with
  | none => false
  | some before =>
    before.kind == .symbol && !attributeWords.contains before.text
      && !(after?.any fun after => after.kind == .star || after.kind == .caret)

/-- What a declaration turns out to be. -/
inductive Shape where
  /-- A function: the `(` of its parameter list, and the `{` of its body or the `;` that
      ends the prototype. -/
  | function (params terminator : TokenId) (body : Bool)
  | statement
deriving DecidableEq, Repr

/-- The shape of the declaration ahead.  `depth` counts the open delimiters, which are not
    told apart here, `before?` is the last leaf outside of them, and `params?` the `(` of the
    parameter list once it was met.  Behind the parameter list only words and groups may
    come before the end. -/
def classifyFrom (depth : Nat) (before? : Option Leaf) (params? : Option TokenId) :
    List Leaf → Shape
  | [] => .statement
  | leaf :: rest =>
    if 0 < depth then
      if leaf.kind.isOpener then classifyFrom (depth + 1) before? params? rest
      else if leaf.kind.isCloser then
        classifyFrom (depth - 1) (if depth = 1 then some leaf else before?) params? rest
      else classifyFrom depth before? params? rest
    else
      match leaf.kind with
      | .lparen =>
        -- the first `(` that can open a parameter list is taken for it
        let params? := if params?.isNone && opensParams before? rest.head? then some leaf.id
          else params?
        classifyFrom 1 before? params? rest
      | .lbracket => classifyFrom 1 before? params? rest
      | .semicolon | .lbrace =>
        match params? with
        | some params => .function params leaf.id (leaf.kind == .lbrace)
        | none => .statement
      | .assign | .rparen | .rbracket | .rbrace => .statement
      | kind =>
        -- behind the parameter list anything but a word makes it a statement
        if params?.isSome && kind != .symbol then .statement
        else classifyFrom 0 (some leaf) params? rest

/-- The shape of the declaration at the start of the leaves. -/
def classify (leaves : List Leaf) : Shape := classifyFrom 0 none none leaves

end KernelPrep.Outline
