/-
  KernelPrep.Document — a loaded file and the edits on it.

  A document holds the token list of a file and its outline.  Every change goes through
  the edits here, which keep the ranges of the outline in step with the list: replacing
  tokens moves the ends of ranges off what was cut out, and a run that is put in becomes a
  node of its own.

  Main definitions:
    * `Document.load`      — read a source text;
    * `Document.ownTokens` — the significant tokens of a node that no child covers;
    * `Edit`               — a change that may fail, keeping what was changed before;
    * `Edit.replaceTokens`, `Edit.insertBefore`, `Edit.insertAfter`,
      `Edit.insertFirstChild` — the changes.
-/
import KernelPrep.Outline.Parse
import KernelPrep.Pass.Error
import KernelPrep.Platform
import KernelPrep.Token.Run

namespace KernelPrep

/-- A loaded file. -/
structure Document where
  config : Config
  tokens : TokenList
  tree : NodeTree
  /-- The line ending of the file, which new lines take over. -/
  newline : String

namespace Document

/-! ## §1. Loading and writing out -/

/-- Read a source text. -/
def load (config : Config) (source : String) : Except ProcessError Document := do
  let tokens ← (TokenList.lex source).mapError .lex
  let tree ← tokens.parse.mapError .parse
  return { config, tokens, tree, newline := tokens.newline }

/-- The text of the document. -/
def text (doc : Document) : String := doc.tokens.text

/-! ## §2. A node's own tokens -/

/-- The significant ones among `ids` outside of the ranges of `children`, which come in
    order.  The optional handle is the end of the range that is being passed. -/
def ownFrom (list : TokenList) :
    Option TokenId → List TokenRange → List TokenId → List TokenId
  | _, _, [] => []
  | some stop, children, id :: ids =>
    ownFrom list (if id = stop then none else some stop) children ids
  | none, child :: children, id :: ids =>
    -- children come in order, so only the next one can begin here
    if child.first = id then
      ownFrom list (if child.last = id then none else some child.last) children ids
    else if list.isSignificant id then id :: ownFrom list none (child :: children) ids
    else ownFrom list none (child :: children) ids
  | none, [], id :: ids =>
    if list.isSignificant id then id :: ownFrom list none [] ids else ownFrom list none [] ids

/-- The significant tokens of a node that no child covers, in order. -/
def ownTokens (doc : Document) (node : NodeId) : List TokenId :=
  match doc.tree.tokens? node with
  | none => []
  | some range =>
    ownFrom doc.tokens none ((doc.tree.children node).filterMap doc.tree.tokens?)
      (doc.tokens.range range)

end Document

/-! ## §3. Edits -/

/-- A change of a document that may fail.  What was changed before a failure stays
    changed. -/
abbrev Edit := EStateM PassError Document

namespace Edit

/-- Make a detached run of the given pieces, whose tokens report `line`. -/
def addRun (line : Nat) (pieces : List Piece) : Edit (Option TokenRange) := fun doc =>
  match doc.tokens.addRun line doc.newline pieces with
  | .ok (run?, tokens) => .ok run? { doc with tokens }
  | .error error => .error (.ofSplice error) doc

/-- Make a detached run of at least one piece. -/
def newRun (line : Nat) (pieces : List Piece) : Edit TokenRange := do
  match ← addRun line pieces with
  | some run => return run
  | none => throw (.internal "synthesized an empty run")

/-- Put a detached run in place of a linked one, or cut the linked one out. -/
def replaceTokens (old : TokenRange) (new? : Option TokenRange) : Edit Unit := fun doc =>
  match doc.tokens.replace old new? with
  | .ok (splice, tokens) => .ok () { doc with tokens, tree := doc.tree.remap splice }
  | .error error => .error (.ofSplice error) doc

/-- Apply `widen` to the ranges of the given nodes until it declines. -/
def widenAll (widen : TokenRange → Option TokenRange) : NodeTree → List NodeId → NodeTree
  | tree, [] => tree
  | tree, id :: rest =>
    match (tree.tokens? id).bind widen with
    | some range => widenAll widen (tree.setTokens id (some range)) rest
    | none => tree

/-- Add a node for a run that was linked in.  `attach` puts it into the tree, and `widen`
    extends the ranges of its ancestors, innermost first, until it declines. -/
def addUserNode (run : TokenRange) (attach : NodeTree → NodeId → NodeTree)
    (widen : TokenRange → Option TokenRange) : Edit NodeId := fun doc =>
  let (id, tree) := doc.tree.alloc .userTokens (some run)
  let tree := attach tree id
  .ok id { doc with tree := widenAll widen tree (tree.ancestors id) }

/-- The tokens of a node. -/
def nodeRange (node : NodeId) : Edit TokenRange := fun doc =>
  match doc.tree.tokens? node with
  | some range => .ok range doc
  | none => .error (.internal "node spans no tokens") doc

/-- Link a detached run into the token list. -/
def linkRun
    (link : TokenList → Except SpliceError (Splice × TokenList)) : Edit Unit := fun doc =>
  match link doc.tokens with
  | .ok (_, tokens) => .ok () { doc with tokens }
  | .error error => .error (.ofSplice error) doc

/-- Put a run before the first token of a node, as the sibling before it. -/
def insertBefore (sibling : NodeId) (run : TokenRange) : Edit NodeId := do
  let anchor := (← nodeRange sibling).first
  linkRun (·.insertBefore anchor run)
  addUserNode run (fun tree id => tree.insertBefore sibling id)
    (fun range => if range.first = anchor then some ⟨run.first, range.last⟩ else none)

/-- Put a run after the last token of a node, as the sibling after it. -/
def insertAfter (sibling : NodeId) (run : TokenRange) : Edit NodeId := do
  let anchor := (← nodeRange sibling).last
  linkRun (·.insertAfter anchor run)
  addUserNode run (fun tree id => tree.insertAfter sibling id)
    (fun range => if range.last = anchor then some ⟨range.first, run.last⟩ else none)

/-- Put a run after the first token of a node, as its first child. -/
def insertFirstChild (parent : NodeId) (run : TokenRange) : Edit NodeId := do
  let anchor := (← nodeRange parent).first
  linkRun (·.insertAfter anchor run)
  addUserNode run (fun tree id => tree.prependChild parent id)
    -- no ancestor ends at the anchor, unless the parent is a single token
    (fun range => if range.last = anchor then some ⟨range.first, run.last⟩ else none)

end Edit

end KernelPrep
