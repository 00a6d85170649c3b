/-
  KernelPrep.Token.List — the tokens of one file, strung together.

  All tokens of a file live in one array of slots.  The linked ones form a chain from
  `head` to `tail`; the others are detached runs that wait to be linked in.  A destroyed
  token leaves its slot empty for good, so handles stay unambiguous.

  A walk along links visits each slot at most once, so the number of slots bounds it; the
  walking functions take that bound as fuel and the public functions supply it.

  Main definitions:
    * `TokenList.append`, `TokenList.synthesize` — the two ways to make a token;
    * `TokenList.chain`     — string detached tokens into one run;
    * `TokenList.ids`, `TokenList.range` — the file's tokens and those of a range, in order;
    * `TokenList.significantFrom?`, `TokenList.nextSignificant?`,
      `TokenList.prevSignificant?`       — the nearest token that is not trivia;
    * `TokenList.text`      — the text that the file's tokens spell.
-/
import KernelPrep.Text.Slice
import KernelPrep.Token.Basic

namespace KernelPrep

/-- The tokens made over one source text. -/
structure TokenList where
  source : String
  slots : Array (Option Token) := #[]
  head? : Option TokenId := none
  tail? : Option TokenId := none
  /-- The number of linked tokens. -/
  length : Nat := 0

/-- Why tokens could not be linked, cut or chained. -/
inductive SpliceError where
  | missing (id : TokenId)
  | notLinked (id : TokenId)
  | alreadyLinked (id : TokenId)
  | broken (range : TokenRange)
deriving DecidableEq, Repr

namespace SpliceError

/-- The wording of the error. -/
def message : SpliceError → String
  | .missing id => "token " ++ id.render ++ " does not exist"
  | .notLinked id => "token " ++ id.render ++ " is not linked into the list"
  | .alreadyLinked id => "token " ++ id.render ++ " is already linked into the list"
  | .broken range =>
    "range " ++ range.first.render ++ "..=" ++ range.last.render ++ " is not a contiguous run"

end SpliceError

namespace TokenList

/-! ## §1. Access -/

/-- The list over `source` that holds no token. -/
def empty (source : String) : TokenList := { source }

/-- The token of a handle, unless it was destroyed or never made. -/
def get? (list : TokenList) (id : TokenId) : Option Token := list.slots[id.index]?.join

/-- The kind of a token. -/
def kind? (list : TokenList) (id : TokenId) : Option TokenKind := (list.get? id).map (·.kind)

/-- The text of a token; empty for a token that does not exist. -/
def textOf (list : TokenList) (id : TokenId) : String := ((list.get? id).map (·.text)).getD ""

/-- The line of a token; zero for a token that does not exist. -/
def lineOf (list : TokenList) (id : TokenId) : Nat := ((list.get? id).map (·.line)).getD 0

/-- The content by which a token is compared, if it has one. -/
def content? (list : TokenList) (id : TokenId) : Option String :=
  (list.get? id).bind (·.content?)

/-- The hash of a token's content, if it has one. -/
def hash? [ContentHash] (list : TokenList) (id : TokenId) : Option UInt64 :=
  (list.get? id).bind (·.hash?)

/-- Whether a token is part of the file. -/
def isLinked (list : TokenList) (id : TokenId) : Bool := ((list.get? id).map (·.linked)).getD false

/-- The token after another, along the links. -/
def next? (list : TokenList) (id : TokenId) : Option TokenId := (list.get? id).bind (·.next?)

/-- The token before another, along the links. -/
def prev? (list : TokenList) (id : TokenId) : Option TokenId := (list.get? id).bind (·.prev?)

/-- Whether no token is linked. -/
def isEmpty (list : TokenList) : Bool := list.length == 0

/-- Whether a token exists and is not trivia. -/
def isSignificant (list : TokenList) (id : TokenId) : Bool :=
  ((list.kind? id).map (!·.isTrivia)).getD false

/-- The file's first token through its last. -/
def whole? (list : TokenList) : Option TokenRange :=
  match list.head?, list.tail? with
  | some first, some last => some ⟨first, last⟩
  | _, _ => none

/-! ## §2. Walks -/

/-- More steps than any walk along links takes. -/
def walkBound (list : TokenList) : Nat := list.slots.size + 1

/-- The handles met by following forward links from `id?`, through `last?` at most. -/
def follow (list : TokenList) (last? : Option TokenId) : Nat → Option TokenId → List TokenId
  | 0, _ => []
  | _, none => []
  | fuel + 1, some id =>
    -- the end is compared before the link is followed, so that nothing behind it is met
    id :: if some id = last? then [] else follow list last? fuel (list.next? id)

/-- The linked tokens, first to last. -/
def ids (list : TokenList) : List TokenId := list.follow list.tail? list.walkBound list.head?

/-- The tokens of a range.  A range whose last token is not met goes on to the end of the
    links. -/
def range (list : TokenList) (range : TokenRange) : List TokenId :=
  list.follow (some range.last) list.walkBound (some range.first)

/-- The first token that is not trivia, following `step` from `id?`. -/
def firstSignificant? (list : TokenList) (step : TokenId → Option TokenId) :
    Nat → Option TokenId → Option TokenId
  | 0, _ => none
  | _, none => none
  | fuel + 1, some id =>
    match list.kind? id with
    | none => none
    | some kind => if kind.isTrivia then firstSignificant? list step fuel (step id) else some id

/-- The first token at or after `id` that is not trivia. -/
def significantFrom? (list : TokenList) (id : TokenId) : Option TokenId :=
  list.firstSignificant? list.next? list.walkBound (some id)

/-- The first token after `id` that is not trivia. -/
def nextSignificant? (list : TokenList) (id : TokenId) : Option TokenId :=
  list.firstSignificant? list.next? list.walkBound (list.next? id)

/-- The last token before `id` that is not trivia. -/
def prevSignificant? (list : TokenList) (id : TokenId) : Option TokenId :=
  list.firstSignificant? list.prev? list.walkBound (list.prev? id)

/-! ## §3. Text -/

/-- The text that the linked tokens spell. -/
def text (list : TokenList) : String := String.join (list.ids.map list.textOf)

/-- The file's line ending: the text of its first line-end token, or a line feed. -/
def newline (list : TokenList) : String :=
  match list.ids.find? (fun id => list.kind? id == some .eol) with
  | some id => list.textOf id
  | none => "\n"

/-- A one-line account of the list. -/
def summary (list : TokenList) : String :=
  let handle : Option TokenId → String
    | some id => "Some(" ++ id.render ++ ")"
    | none => "None"
  "TokenList \x7b len: " ++ toString list.length ++ ", slots: " ++ toString list.slots.size
    ++ ", head: " ++ handle list.head? ++ ", tail: " ++ handle list.tail? ++ ", .. \x7d"

/-! ## §4. Making tokens -/

/-- Change the token of a handle, if it exists. -/
def modify (list : TokenList) (id : TokenId) (f : Token → Token) : TokenList :=
  { list with slots := list.slots.modify id.index (·.map f) }

/-- Make `b?` follow `a?`.  Without an `a?` the file starts at `b?`; without a `b?` it ends
    at `a?`. -/
def link (list : TokenList) (a? b? : Option TokenId) : TokenList :=
  let list := match a? with
    | some a => list.modify a fun token => { token with next? := b? }
    | none => { list with head? := b? }
  match b? with
  | some b => list.modify b fun token => { token with prev? := a? }
  | none => { list with tail? := a? }

/-- The handle that the next token will get. -/
def nextId (list : TokenList) : TokenId := ⟨list.slots.size⟩

/-- Add a token in a new slot. -/
def alloc (list : TokenList) (token : Token) : TokenList :=
  { list with slots := list.slots.push (some token) }

/-- Make a token over a span of the source and link it behind the last one. -/
def append (list : TokenList) (kind : TokenKind) (span : Span) (line : Nat) :
    TokenId × TokenList :=
  let id := list.nextId
  let token : Token :=
    { kind, line, text := Text.slice list.source span.start span.stop, span? := some span,
      prev? := list.tail?, linked := true }
  -- `link` sets the end only where nothing follows, so that it is set once more here
  let linked := (list.alloc token).link list.tail? (some id)
  (id, { linked with tail? := some id, length := list.length + 1 })

/-- Make a detached token with a text of its own. -/
def synthesize (list : TokenList) (kind : TokenKind) (text : String) (line : Nat) :
    TokenId × TokenList :=
  (list.nextId, list.alloc { kind, text, line })

/-- Make a detached token for each kind and text, in order. -/
def synthesizeAll (list : TokenList) (line : Nat) :
    List (TokenKind × String) → List TokenId × TokenList
  | [] => ([], list)
  | (kind, text) :: rest =>
    let (id, list) := list.synthesize kind text line
    let (ids, list) := synthesizeAll list line rest
    (id :: ids, list)

/-- Link each token to its neighbours in the given order, `before?` preceding the first. -/
def chainFrom (list : TokenList) (before? : Option TokenId) : List TokenId → TokenList
  | [] => list
  | id :: rest =>
    -- a token given twice is written twice, and keeps the links of the second time
    let list := list.modify id fun token => { token with prev? := before?, next? := rest.head? }
    chainFrom list (some id) rest

/-- The first of the given tokens that does not exist or is linked, as an error. -/
def checkDetached (list : TokenList) : List TokenId → Except SpliceError Unit
  | [] => .ok ()
  | id :: rest =>
    match list.get? id with
    | none => .error (.missing id)
    | some token => if token.linked then .error (.alreadyLinked id) else checkDetached list rest

/-- String detached tokens, in the given order, into one run; no tokens make no run. -/
def chain (list : TokenList) (ids : List TokenId) :
    Except SpliceError (Option TokenRange × TokenList) := do
  list.checkDetached ids
  let run := match ids.head?, ids.getLast? with
    | some first, some last => some ⟨first, last⟩
    | _, _ => none
  return (run, list.chainFrom none ids)

end TokenList

end KernelPrep
