/-
  KernelPrep.Outline.Dump — listings of the outline.

  Main definitions:
    * `Outline.snippet` — the text of a range on one line, cut to a fixed width;
    * `Outline.dump`    — one line per node, indented by depth.
-/
import KernelPrep.Node.Tree

namespace KernelPrep.Outline

/-- The width to which snippets are cut, in characters. -/
def snippetWidth : Nat := 48

/-- One more token of a snippet, whose characters stand last to first: trivia becomes one
    space, except at the start and after another space. -/
def snippetStep (list : TokenList) (text : List Char) (id : TokenId) : List Char :=
  if (list.kind? id).any (·.isTrivia) then
    match text with
    | [] | ' ' :: _ => text
    | _ => ' ' :: text
  else (list.textOf id).toList.reverse ++ text

/-- The characters of a snippet, last to first.  No token is read once there are too many
    for the width. -/
def snippetFrom (list : TokenList) (text : List Char) : List TokenId → List Char
  | [] => text
  | id :: ids =>
    if text.length > snippetWidth then text else snippetFrom list (snippetStep list text id) ids

/-- The text of a range, its trivia collapsed, cut with `...` when it is too long. -/
def snippet (list : TokenList) (range : TokenRange) : String :=
  let text := (snippetFrom list [] (list.range range)).reverse
  if text.length > snippetWidth then String.ofList (text.take (snippetWidth - 3)) ++ "..."
  else String.ofList text

/-- The line for a node, without its indentation: its kind and, but for the root, its line
    and text. -/
def dumpLine (list : TokenList) (id : NodeId) (node : Node) : String :=
  node.kind.name ++
    if id = NodeTree.root then ""
    else
      match node.tokens? with
      | none => ""
      | some range =>
        " @" ++ toString (list.lineOf range.first) ++ " `" ++ snippet list range ++ "`"

/-- The lines for a node at a depth and for the nodes below it. -/
def dumpFrom (list : TokenList) (tree : NodeTree) : Nat → Nat → NodeId → String
  | 0, _, _ => ""
  | fuel + 1, depth, id =>
    match tree.get? id with
    | none => ""
    | some node =>
      String.ofList (List.replicate (2 * depth) ' ') ++ dumpLine list id node ++ "\n"
        ++ String.join ((tree.children id).map (dumpFrom list tree fuel (depth + 1)))

/-- One line per node, each node before its children. -/
def dump (list : TokenList) (tree : NodeTree) : String :=
  dumpFrom list tree tree.walkBound 0 NodeTree.root

end KernelPrep.Outline
