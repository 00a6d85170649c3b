/-
  KernelPrep.Outline.Skeleton — the outline of a file as plain data.

  A skeleton is a node with its range of tokens and its children.  Grafting skeletons
  under a node allocates each node before its children and these from left to right, so
  that the handles of a freshly built tree count the nodes in pre-order.

  Main definitions:
    * `Skeleton`             — a node with everything below it;
    * `Skeleton.size`        — the number of its nodes;
    * `NodeTree.graft`       — put a skeleton under a node of a tree;
    * `NodeTree.ofSkeletons` — the tree of a whole file.
-/
import KernelPrep.Node.Tree

namespace KernelPrep

/-- A node, its tokens and what is below it. -/
inductive Skeleton where
  | node (kind : NodeKind) (range : TokenRange) (children : List Skeleton)

namespace Skeleton

/-- The kind of the top node. -/
def kind : Skeleton → NodeKind
  | .node kind _ _ => kind

/-- The tokens of the top node. -/
def range : Skeleton → TokenRange
  | .node _ range _ => range

/-- The skeletons directly below the top node. -/
def children : Skeleton → List Skeleton
  | .node _ _ children => children

/-- A node without children. -/
def leaf (kind : NodeKind) (range : TokenRange) : Skeleton := .node kind range []

mutual

/-- The number of nodes. -/
def size : Skeleton → Nat
  | .node _ _ children => sizeAll children + 1

/-- The number of nodes of several skeletons. -/
def sizeAll : List Skeleton → Nat
  | [] => 0
  | s :: rest => size s + sizeAll rest

end

end Skeleton

namespace NodeTree

mutual

/-- Add a skeleton as the last child of `parent`. -/
def graft (tree : NodeTree) (parent : NodeId) : Skeleton → NodeTree
  | .node kind range children =>
    let (id, tree) := tree.alloc kind (some range)
    graftAll (tree.appendChild parent id) id children

/-- Add skeletons, in order, behind the children of `parent`. -/
def graftAll (tree : NodeTree) (parent : NodeId) : List Skeleton → NodeTree
  | [] => tree
  | s :: rest => graftAll (graft tree parent s) parent rest

end

/-- The tree of a file with the given tokens and top-level items. -/
def ofSkeletons (whole? : Option TokenRange) (items : List Skeleton) : NodeTree :=
  (ofRoot whole?).graftAll root items

end NodeTree

end KernelPrep
