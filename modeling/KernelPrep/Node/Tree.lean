/-
  KernelPrep.Node.Tree — the outline of a file as a linked tree.

  Nodes live in an array of slots; each links to its parent, to its first and last child
  and to its next sibling.  The root is slot zero.  A removed node leaves its slot empty.

  A walk along siblings or parents meets each slot at most once, which bounds it, and so
  does every way down from the root, which bounds the depth of a walk over the whole tree.
  A node that is linked below two others is met once below each.

  Main definitions:
    * `NodeTree.alloc`      — make a node outside the tree;
    * `NodeTree.children`, `NodeTree.ancestors` — neighbours by link;
    * `NodeTree.container?` — the enclosing item at file scope;
    * `NodeTree.appendChild`, `NodeTree.prependChild`, `NodeTree.insertBefore`,
      `NodeTree.insertAfter`, `NodeTree.remove` — linking and removing;
    * `NodeTree.visit`, `NodeTree.preOrder`     — walking the whole tree;
    * `NodeTree.remap`      — following a change of the token list.
-/
import KernelPrep.Node.Basic
import KernelPrep.Token.Splice

namespace KernelPrep

/-- The nodes of one file. -/
structure NodeTree where
  nodes : Array (Option Node)

namespace NodeTree

/-! ## §1. Access -/

/-- The root of every tree. -/
def root : NodeId := ⟨0⟩

/-- The tree of a root alone, over the given tokens. -/
def ofRoot (tokens? : Option TokenRange) : NodeTree := ⟨#[some { kind := .root, tokens? }]⟩

/-- The node of a handle, unless it was removed or never made. -/
def get? (tree : NodeTree) (id : NodeId) : Option Node := tree.nodes[id.index]?.join

/-- The kind of a node. -/
def kind? (tree : NodeTree) (id : NodeId) : Option NodeKind := (tree.get? id).map (·.kind)

/-- The tokens of a node. -/
def tokens? (tree : NodeTree) (id : NodeId) : Option TokenRange :=
  (tree.get? id).bind (·.tokens?)

/-- The parent of a node. -/
def parent? (tree : NodeTree) (id : NodeId) : Option NodeId := (tree.get? id).bind (·.parent?)

/-- The first child of a node. -/
def firstChild? (tree : NodeTree) (id : NodeId) : Option NodeId :=
  (tree.get? id).bind (·.firstChild?)

/-- The last child of a node. -/
def lastChild? (tree : NodeTree) (id : NodeId) : Option NodeId :=
  (tree.get? id).bind (·.lastChild?)

/-- The next sibling of a node. -/
def nextSibling? (tree : NodeTree) (id : NodeId) : Option NodeId :=
  (tree.get? id).bind (·.nextSibling?)

/-- The number of nodes that exist, the root included. -/
def liveCount (tree : NodeTree) : Nat := tree.nodes.countP (·.isSome)

/-- Whether the root has no child. -/
def isEmpty (tree : NodeTree) : Bool := (tree.firstChild? root).isNone

/-- A one-line account of the tree. -/
def summary (tree : NodeTree) : String :=
  "NodeTree \x7b len: " ++ toString tree.liveCount ++ ", root: " ++ root.render ++ ", .. \x7d"

/-! ## §2. Walks along links -/

/-- More steps than any walk along siblings or parents takes, and more than any way down
    from the root has. -/
def walkBound (tree : NodeTree) : Nat := tree.nodes.size + 1

/-- The handles met by following `step` from `id?`. -/
def follow (step : NodeId → Option NodeId) : Nat → Option NodeId → List NodeId
  | 0, _ => []
  | _, none => []
  | fuel + 1, some id => id :: follow step fuel (step id)

/-- The children of a node, first to last. -/
def children (tree : NodeTree) (id : NodeId) : List NodeId :=
  follow tree.nextSibling? tree.walkBound (tree.firstChild? id)

/-- The parent of a node, its parent, and so on through the root. -/
def ancestors (tree : NodeTree) (id : NodeId) : List NodeId :=
  follow tree.parent? tree.walkBound (tree.parent? id)

/-- The first of a node and its ancestors whose parent satisfies `stop`. -/
def below? (tree : NodeTree) (stop : NodeId → Bool) : Nat → NodeId → Option NodeId
  | 0, _ => none
  | fuel + 1, id =>
    match tree.parent? id with
    | none => none
    | some parent => if stop parent then some id else below? tree stop fuel parent

/-- The one among a node and its ancestors that is a child of the root. -/
def topLevel? (tree : NodeTree) (id : NodeId) : Option NodeId :=
  tree.below? (· == root) tree.walkBound id

/-- The nearest one among a node and its ancestors that stands at file scope: a child of
    the root or of a linkage block. -/
def container? (tree : NodeTree) (id : NodeId) : Option NodeId :=
  -- a linkage block is no container for what is in it: its constructs are at file scope too
  tree.below? (fun parent => parent == root || tree.kind? parent == some .linkageBlock)
    tree.walkBound id

/-- The sibling before a node. -/
def prevSibling? (tree : NodeTree) (id : NodeId) : Option NodeId :=
  (tree.parent? id).bind fun parent => ((tree.children parent).takeWhile (· != id)).getLast?

/-! ## §3. Making and linking -/

/-- Change the node of a handle, if it exists. -/
def modify (tree : NodeTree) (id : NodeId) (f : Node → Node) : NodeTree :=
  ⟨tree.nodes.modify id.index (·.map f)⟩

/-- Make a node that is not yet part of the tree. -/
def alloc (tree : NodeTree) (kind : NodeKind) (tokens? : Option TokenRange) :
    NodeId × NodeTree :=
  (⟨tree.nodes.size⟩, ⟨tree.nodes.push (some { kind, tokens? })⟩)

/-- Set the tokens of a node. -/
def setTokens (tree : NodeTree) (id : NodeId) (tokens? : Option TokenRange) : NodeTree :=
  tree.modify id fun node => { node with tokens? }

/-- Make `child` the last child of `parent`. -/
def appendChild (tree : NodeTree) (parent child : NodeId) : NodeTree :=
  let last? := tree.lastChild? parent
  -- the child's own links are overwritten, so it must not stand in the tree already
  let tree := tree.modify child fun node =>
    { node with parent? := some parent, nextSibling? := none }
  let tree := match last? with
    | some last => tree.modify last fun node => { node with nextSibling? := some child }
    | none => tree.modify parent fun node => { node with firstChild? := some child }
  tree.modify parent fun node => { node with lastChild? := some child }

/-- Make `node` the sibling directly before `sibling`; nothing happens when `sibling` has no
    parent. -/
def insertBefore (tree : NodeTree) (sibling node : NodeId) : NodeTree :=
  match tree.parent? sibling with
  | none => tree
  | some parent =>
    -- siblings are linked forwards only, so the one before is searched from the first
    let prev? := tree.prevSibling? sibling
    let tree := tree.modify node fun n =>
      { n with parent? := some parent, nextSibling? := some sibling }
    match prev? with
    | some prev => tree.modify prev fun n => { n with nextSibling? := some node }
    | none => tree.modify parent fun n => { n with firstChild? := some node }

/-- Make `child` the first child of `parent`. -/
def prependChild (tree : NodeTree) (parent child : NodeId) : NodeTree :=
  match tree.firstChild? parent with
  | some first => tree.insertBefore first child
  | none => tree.appendChild parent child

/-- Make `node` the sibling directly after `sibling`; nothing happens when `sibling` has no
    parent. -/
def insertAfter (tree : NodeTree) (sibling node : NodeId) : NodeTree :=
  match tree.parent? sibling with
  | none => tree
  | some parent =>
    let next? := tree.nextSibling? sibling
    let tree := tree.modify node fun n =>
      { n with parent? := some parent, nextSibling? := next? }
    let tree := tree.modify sibling fun n => { n with nextSibling? := some node }
    if next?.isNone then tree.modify parent fun n => { n with lastChild? := some node } else tree

/-! ## §4. Removing -/

/-- More steps than emptying slots takes: one per node and child link, since a slot once
    emptied links no further. -/
def sweepBound (tree : NodeTree) : Nat := (tree.nodes.size + 1) * (tree.nodes.size + 1)

/-- Take a node out of its parent's children. -/
def unlink (tree : NodeTree) (id : NodeId) : NodeTree :=
  match tree.parent? id with
  | none => tree
  | some parent =>
    let prev? := tree.prevSibling? id
    let next? := tree.nextSibling? id
    let tree := match prev? with
      | some prev => tree.modify prev fun n => { n with nextSibling? := next? }
      | none => tree.modify parent fun n => { n with firstChild? := next? }
    if next?.isNone then tree.modify parent fun n => { n with lastChild? := prev? } else tree

/-- Empty the slots of the given nodes and of all nodes below them. -/
def destroyAll (tree : NodeTree) : Nat → List NodeId → NodeTree
  | 0, _ => tree
  | _, [] => tree
  | fuel + 1, id :: rest =>
    -- the children are read off before their parent's slot is emptied
    let below := tree.children id
    destroyAll ⟨tree.nodes.modify id.index fun _ => none⟩ fuel (below ++ rest)

/-- Remove a node with everything below it.  The root stays. -/
def remove (tree : NodeTree) (id : NodeId) : NodeTree :=
  if id = root then tree
  else
    let tree := tree.unlink id
    tree.destroyAll tree.sweepBound [id]

/-! ## §5. Walking the whole tree -/

/-- Visit nodes in turn until one visit answers to stop; the result tells whether none
    did. -/
def visitEach {σ : Type} (visit : NodeId → σ → Bool × σ) : List NodeId → σ → Bool × σ
  | [], state => (true, state)
  | id :: rest, state =>
    match visit id state with
    | (false, state) => (false, state)
    | (true, state) => visitEach visit rest state

/-- Visit a node and then, one after the other, its children with what is below them, down
    to a given depth. -/
def visitFrom {σ : Type} (tree : NodeTree) (f : σ → NodeId → Node → Bool × σ) :
    Nat → NodeId → σ → Bool × σ
  | 0, _, state => (true, state)
  | depth + 1, id, state =>
    match tree.get? id with
    | none => (true, state)
    | some node =>
      match f state id node with
      | (false, state) => (false, state)
      | (true, state) => visitEach (visitFrom tree f depth) (tree.children id) state

/-- Visit the nodes from the root on, a node before its children.  The visitor threads a
    state and answers whether to go on; the result tells whether it always did. -/
def visit {σ : Type} (tree : NodeTree) (f : σ → NodeId → Node → Bool × σ) (init : σ) : Bool × σ :=
  tree.visitFrom f tree.walkBound root init

/-- The nodes of the tree, each before its children. -/
def preOrder (tree : NodeTree) : List NodeId :=
  (tree.visit (fun seen id _ => (true, id :: seen)) []).2.reverse

/-! ## §6. Following a change of the token list -/

end NodeTree

/-- Where a range of tokens is after a change.  Ends that were cut out move to the run put
    in their place, or else to the neighbours of the cut; a range that was cut out whole and
    not replaced is gone. -/
def Splice.moved? (splice : Splice) (range : TokenRange) : Option TokenRange :=
  let firstGone := splice.removed.contains range.first
  let lastGone := splice.removed.contains range.last
  if firstGone && lastGone && splice.inserted?.isNone then none
  else
    let first? := if firstGone then (splice.inserted?.map (·.first)).or splice.after?
      else some range.first
    let last? := if lastGone then (splice.inserted?.map (·.last)).or splice.before?
      else some range.last
    match first?, last? with
    | some first, some last => some ⟨first, last⟩
    | _, _ => none

namespace NodeTree

/-- Whether a change takes away all tokens of the node. -/
def isEmptiedBy (splice : Splice) (node : Node) : Bool :=
  (node.tokens?.map fun range => (splice.moved? range).isNone).getD false

/-- Move the ranges of all nodes off the tokens that a change cut out, and remove the nodes
    that lost all their tokens. -/
def remap (tree : NodeTree) (splice : Splice) : NodeTree :=
  if splice.removed.isEmpty then tree
  else
    -- which nodes are emptied is decided on the old ranges, before any is moved
    let emptied := (List.range tree.nodes.size).filter fun i =>
      ((tree.get? ⟨i⟩).map (isEmptiedBy splice)).getD false
    let moved : NodeTree := ⟨tree.nodes.map fun slot =>
      slot.map fun node => { node with tokens? := node.tokens?.bind splice.moved? }⟩
    emptied.foldl (fun tree i => tree.remove ⟨i⟩) moved

end NodeTree

end KernelPrep
