/-
  KernelPrep.Outline.Leaf — the tokens that the outline of a file is made of.

  The outline does not depend on blanks and comments, and on line ends only in so far as
  they end a directive.  A leaf is therefore a significant token together with one bit: is
  there, between it and the significant token before it, a line end that counts?  A line
  end does not count when a backslash escapes it, that is, when the nearest token before
  it that is not a blank is a backslash.

  Main definitions:
    * `Leaf`              — a significant token as the outline sees it;
    * `Leaf.ofTokens`     — the leaves of a sequence of tokens;
    * `TokenList.leaves`  — the leaves of a file.
-/
import KernelPrep.Token.List

namespace KernelPrep

/-- A significant token. -/
structure Leaf where
  id : TokenId
  kind : TokenKind
  text : String
  line : Nat
  /-- Whether a line end that no backslash escapes stands between this token and the
      significant token before it. -/
  startsLine : Bool
deriving DecidableEq, Repr

namespace Leaf

/-- The leaves of a sequence of tokens.  `escaped` tells whether the nearest token before
    it that is not a blank is a backslash, `broken` whether a line end has counted since
    the last leaf. -/
def ofTokensFrom (escaped broken : Bool) : List (TokenId × Token) → List Leaf
  | [] => []
  | (id, token) :: rest =>
    match token.kind with
    | .whitespace => ofTokensFrom escaped broken rest
    | .eol => ofTokensFrom false (broken || !escaped) rest
    | .comment => ofTokensFrom false broken rest
    | kind =>
      { id, kind, text := token.text, line := token.line, startsLine := broken }
        :: ofTokensFrom (kind == .backslash) false rest

/-- The leaves of a sequence of tokens. -/
def ofTokens (tokens : List (TokenId × Token)) : List Leaf := ofTokensFrom false false tokens

end Leaf

namespace TokenList

/-- The linked tokens with their handles, first to last. -/
def entries (list : TokenList) : List (TokenId × Token) :=
  list.ids.filterMap fun id => (list.get? id).map (id, ·)

/-- The leaves of a file. -/
def leaves (list : TokenList) : List Leaf := Leaf.ofTokens list.entries

end TokenList

end KernelPrep
