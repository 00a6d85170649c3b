/-
  KernelPrep.Outline.Function — what the outline tells about functions.

  A kernel is recognised by the first words of the function, not by its meaning.

  Main definitions:
    * `Outline.functionParams?`, `Outline.functionBody?` — the parts of a function;
    * `Outline.functionName?` — the token that names it;
    * `Outline.isKernel`      — whether it is an entry point for the device.
-/
import KernelPrep.Node.Tree

namespace KernelPrep.Outline

/-- The first child of the given kind. -/
def childOfKind? (tree : NodeTree) (node : NodeId) (kind : NodeKind) : Option NodeId :=
  (tree.children node).find? fun child => tree.kind? child == some kind

/-- The parameter list of a function. -/
def functionParams? (tree : NodeTree) (function : NodeId) : Option NodeId :=
  childOfKind? tree function .functionParams

/-- The body of a function. -/
def functionBody? (tree : NodeTree) (function : NodeId) : Option NodeId :=
  childOfKind? tree function .statementBlock

/-- The nearest symbol at or before `id?`, not looking before `start`. -/
def symbolBefore? (list : TokenList) (start : TokenId) : Nat → Option TokenId → Option TokenId
  | 0, _ => none
  | _, none => none
  | fuel + 1, some id =>
    if list.kind? id = some .symbol then some id
    -- the start of the function is looked at, but not passed
    else if id = start then none
    else symbolBefore? list start fuel (list.prevSignificant? id)

/-- The name of a function: the nearest symbol before its parameter list. -/
def functionName? (list : TokenList) (tree : NodeTree) (function : NodeId) : Option TokenId := do
  let params ← functionParams? tree function
  let paramTokens ← tree.tokens? params
  let tokens ← tree.tokens? function
  symbolBefore? list tokens.first list.walkBound (list.prevSignificant? paramTokens.first)

/-- Whether a function starts with `kernel`, `__kernel`, `__global__` or
    `extern "C" __global__`. -/
def isKernel (list : TokenList) (tree : NodeTree) (function : NodeId) : Bool :=
  match tree.get? function with
  | none => false
  | some node =>
    match node.tokens? with
    | none => false
    | some range =>
      if !node.kind.isFunction then false
      else
        match list.textOf range.first with
        | "kernel" | "__kernel" | "__global__" => true
        | "extern" =>
          match list.nextSignificant? range.first with
          | none => false
          | some linkage =>
            list.kind? linkage == some .string && list.textOf linkage == "\"C\""
              && (list.nextSignificant? linkage).any (list.textOf · == "__global__")
        | _ => false

end KernelPrep.Outline
