/-
  KernelPrep.Token.Basic — tokens, their handles and ranges of them.

  A token carries its kind, its text and the line on which it starts, and the links by
  which the token list strings tokens together.  Tokens are addressed by stable handles:
  a handle is given out once and never names another token.

  Main definitions:
    * `TokenId`    — the handle of a token;
    * `Token`      — kind, text, line, place in the source, links;
    * `TokenRange` — the tokens from one handle through another.
-/
import KernelPrep.Span
import KernelPrep.Token.Hash
import KernelPrep.Token.Kind

namespace KernelPrep

/-- The handle of a token: its place in the order of allocation.  Places are counted without a
    bound here.  The program keeps them in 32 bits, so that a file is taken to have no more than
    `2 ^ 32` tokens. -/
structure TokenId where
  index : Nat
deriving DecidableEq, Repr, Inhabited

namespace TokenId

/-- The written form of a handle, such as `t5`. -/
def render (id : TokenId) : String := "t" ++ toString id.index

end TokenId

/-- One token. -/
structure Token where
  kind : TokenKind
  text : String
  /-- The line of the token's first byte, counted from one. -/
  line : Nat
  /-- Where the text stands in the source, for a token that was read from it. -/
  span? : Option Span := none
  prev? : Option TokenId := none
  next? : Option TokenId := none
  /-- Whether the token is part of the file, not only of a run waiting to be linked. -/
  linked : Bool := false
deriving DecidableEq, Repr

namespace Token

/-- What identifiers and keywords are compared by; other tokens have no content to
    compare. -/
def content? (token : Token) : Option String :=
  if token.kind.isNamed then some token.text else none

/-- The hash of what a token is compared by. -/
def hash? [ContentHash] (token : Token) : Option UInt64 := token.content?.map ContentHash.ofText

end Token

/-- The tokens from `first` through `last`, following the forward links. -/
structure TokenRange where
  first : TokenId
  last : TokenId
deriving DecidableEq, Repr, Inhabited

namespace TokenRange

/-- The range of one token. -/
def single (id : TokenId) : TokenRange := ⟨id, id⟩

end TokenRange

end KernelPrep
