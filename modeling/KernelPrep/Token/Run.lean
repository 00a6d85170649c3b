/-
  KernelPrep.Token.Run — new text as a run of tokens.

  Passes spell what they put into a file as a sequence of typed pieces, so that new text
  needs no second reading.  A run is detached until it is linked in.

  Main definitions:
    * `Piece`            — a piece of new text;
    * `Piece.spell`      — its tokens, as kinds and texts;
    * `TokenList.addRun` — make a detached run.
-/
import KernelPrep.Text.Blank
import KernelPrep.Token.List

namespace KernelPrep

/-- A piece of new text. -/
inductive Piece where
  | symbol (text : String)
  /-- An operator or keyword. -/
  | punct (kind : TokenKind)
  | space
  /-- The given number of spaces. -/
  | indent (width : Nat)
  /-- A line end. -/
  | eol
  /-- A text to be put in double quotes. -/
  | string (text : String)
  | number (text : String)
  /-- A name with arguments in parentheses. -/
  | call (name : String) (args : List String)
deriving DecidableEq, Repr

namespace Piece

/-- A word of an argument: digits alone are a number, all else is a symbol. -/
def spellWord (word : String) : TokenKind × String :=
  if word.toList.all (fun c => '0' ≤ c && c ≤ '9') then (.number, word) else (.symbol, word)

/-- The words of an argument with one space between them; a blank argument has no token. -/
def spellArg (arg : String) : List (TokenKind × String) :=
  ((Text.words arg).map spellWord).intersperse (.whitespace, " ")

/-- Arguments with a comma and a space between them. -/
def spellArgs (args : List String) : List (TokenKind × String) :=
  [(.comma, ","), (.whitespace, " ")].intercalate (args.map spellArg)

/-- The tokens of a piece, where lines end with `eol`. -/
def spell (eol : String) : Piece → List (TokenKind × String)
  | .symbol text => [(.symbol, text)]
  | .punct kind => [(kind, kind.spelling?.getD "")]
  | .space => [(.whitespace, " ")]
  | .indent width => [(.whitespace, String.ofList (List.replicate width ' '))]
  | .eol => [(.eol, eol)]
  | .string text => [(.string, "\"" ++ text ++ "\"")]
  | .number text => [(.number, text)]
  | .call name args => (.symbol, name) :: (.lparen, "(") :: spellArgs args ++ [(.rparen, ")")]

end Piece

namespace TokenList

/-- Make a detached run of the given pieces, whose tokens all report `line`; no pieces make
    no run. -/
def addRun (list : TokenList) (line : Nat) (eol : String) (pieces : List Piece) :
    Except SpliceError (Option TokenRange × TokenList) :=
  let (ids, list) := list.synthesizeAll line (pieces.flatMap (·.spell eol))
  list.chain ids

end TokenList

end KernelPrep
