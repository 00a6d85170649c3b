/-
  KernelPrep.Node.Basic — the nodes of a file's outline.

  Main definitions:
    * `NodeId`   — the handle of a node;
    * `NodeKind` — what construct a node stands for;
    * `Node`     — kind, range of tokens, links.
-/
import KernelPrep.Token.Basic

namespace KernelPrep

/-- The handle of a node: its place in the order of allocation. -/
structure NodeId where
  index : Nat
deriving DecidableEq, Repr, Inhabited

/-- The written form of a handle, such as `n0`. -/
def NodeId.render (id : NodeId) : String := "n" ++ toString id.index

/-- The construct that a node stands for. -/
inductive NodeKind where
  /-- The whole file. -/
  | root
  /-- A `#` line with its continuation lines. -/
  | directive
  /-- Tokens through a `;` or a closing block. -/
  | statement
  /-- Statements in braces. -/
  | statementBlock
  /-- A function with a body. -/
  | functionDefn
  /-- A function prototype. -/
  | functionDecl
  /-- The parameter list of a function, in its parentheses. -/
  | functionParams
  /-- A struct with its body and the names declared behind it. -/
  | structDefn
  /-- A struct without a body. -/
  | structDecl
  /-- The tag of a struct. -/
  | structTag
  /-- A name declared behind the body of a struct. -/
  | structName
  /-- A type definition. -/
  | typedef
  /-- `extern "C"` with items in braces. -/
  | linkageBlock
  /-- A token that stands alone. -/
  | token
  /-- Tokens put in by a pass. -/
  | userTokens
deriving DecidableEq, Repr, Inhabited

namespace NodeKind

/-- All kinds. -/
def all : List NodeKind :=
  [.root, .directive, .statement, .statementBlock, .functionDefn, .functionDecl,
    .functionParams, .structDefn, .structDecl, .structTag, .structName, .typedef,
    .linkageBlock, .token, .userTokens]

/-- The name of a kind, as tree listings show it. -/
def name : NodeKind → String
  | .root => "Root"
  | .directive => "PpDirective"
  | .statement => "Statement"
  | .statementBlock => "StatementBlock"
  | .functionDefn => "FunctionDefn"
  | .functionDecl => "FunctionDecl"
  | .functionParams => "FunctionParams"
  | .structDefn => "StructDefn"
  | .structDecl => "StructDecl"
  | .structTag => "StructTag"
  | .structName => "StructName"
  | .typedef => "Typedef"
  | .linkageBlock => "LinkageBlock"
  | .token => "Token"
  | .userTokens => "UserTokens"

/-- The kind of a given name. -/
def ofName? (name : String) : Option NodeKind := all.find? (·.name == name)

/-- Function definitions and prototypes. -/
def isFunction : NodeKind → Bool
  | .functionDefn | .functionDecl => true
  | _ => false

end NodeKind

/-- One node.  It owns no text, only a range of tokens. -/
structure Node where
  kind : NodeKind
  tokens? : Option TokenRange := none
  parent? : Option NodeId := none
  firstChild? : Option NodeId := none
  lastChild? : Option NodeId := none
  nextSibling? : Option NodeId := none
deriving DecidableEq, Repr

end KernelPrep
