/-
  KernelPrep.Token.Lex — a source text as a token list.

  Each lexeme becomes a token: operators find their kind by spelling, identifiers may be
  keywords, and both sorts of comments are one kind.  The line of a token is one more than
  the number of line feeds in the tokens before it.  A lexeme of an error tag stops the
  reading; the tokens made before it stay.

  Main definitions:
    * `LexError`        — why and on which line the reading stops;
    * `TokenKind.ofLexeme` — the kind of one lexeme;
    * `Lexing.run`      — the tokens read, the line reached and the error met;
    * `TokenList.lex`   — the token list of a source without errors.
-/
import KernelPrep.Diagnostic.Basic
import KernelPrep.Lexeme.Scan
import KernelPrep.Token.List

namespace KernelPrep

/-! ## §1. Errors -/

/-- Why a source cannot be read. -/
inductive LexFault where
  | illegalCharacter (char : Char)
  | unterminatedString
  | unterminatedComment
  | interiorNull
deriving DecidableEq, Repr

/-- A fault at the line where the offending lexeme starts. -/
structure LexError where
  line : Nat
  fault : LexFault
deriving DecidableEq, Repr

namespace LexFault

/-- The wording of the fault. -/
def message : LexFault → String
  | .illegalCharacter char => "illegal character `" ++ char.toString ++ "`"
  | .unterminatedString => "unterminated string literal"
  | .unterminatedComment => "unterminated block comment"
  | .interiorNull => "NUL byte in source"

/-- The code of the fault. -/
def code : LexFault → ErrorCode
  | .illegalCharacter _ => .illegalCharacter
  | .unterminatedString => .unterminatedString
  | .unterminatedComment => .unterminatedComment
  | .interiorNull => .interiorNull

/-- What is added to explain the fault. -/
def notes : LexFault → List String
  | .unterminatedComment => ["block comments do not nest"]
  | .unterminatedString => ["string literals cannot span lines"]
  | .illegalCharacter _ | .interiorNull => []

end LexFault

namespace LexError

/-- The wording of the error, its line first. -/
def message (error : LexError) : String :=
  "line " ++ toString error.line ++ ": " ++ error.fault.message

/-- The error as a diagnostic about `file`. -/
def toDiagnostic (error : LexError) (file : String) : Diagnostic :=
  { Diagnostic.error error.fault.code error.fault.message file error.line with
    notes := error.fault.notes }

end LexError

/-! ## §2. One lexeme -/

/-- The kind of the token for a lexeme that starts at byte `start` of `source`, or why there
    is none. -/
def TokenKind.ofLexeme (source : String) (start : Nat) (lexeme : Lexeme) :
    Except LexFault TokenKind :=
  match lexeme.tag with
  | .whitespace => .ok .whitespace
  | .newline => .ok .eol
  | .lineComment | .blockComment => .ok .comment
  | .ident => .ok ((keyword? (Text.slice source start (start + lexeme.length))).getD .symbol)
  | .number => .ok .number
  | .string => .ok .string
  | .single byte =>
    match ofByte? byte with
    | some kind => .ok kind
    | none => .error (.illegalCharacter (Char.ofUInt8 byte))
  | .pair first second =>
    match ofPair? first second with
    | some kind => .ok kind
    | none => .error (.illegalCharacter (Char.ofUInt8 first))
  | .unterminatedString => .error .unterminatedString
  | .unterminatedComment => .error .unterminatedComment
  | .invalidByte byte =>
    .error (.illegalCharacter ((Text.charAt? source start).getD (Char.ofUInt8 byte)))
  | .interiorNull => .error .interiorNull

/-! ## §3. A whole source -/

/-- The largest line number; lines are not counted beyond it. -/
def maxLine : Nat := 4294967295

/-- How far the reading of a source has come. -/
structure Lexing where
  tokens : TokenList
  /-- The line of the next token. -/
  line : Nat := 1
  error? : Option LexError := none

namespace Lexing

/-- Read the given lexemes, stopping at the first that cannot be read. -/
def readFrom (state : Lexing) : List (Nat × Lexeme) → Lexing
  | [] => state
  | (start, lexeme) :: rest =>
    let source := state.tokens.source
    match TokenKind.ofLexeme source start lexeme with
    -- the line is that of the lexeme's start, and the tokens before it stay
    | .error fault => { state with error? := some ⟨state.line, fault⟩ }
    | .ok kind =>
      let span := Span.ofLength start lexeme.length
      let feeds := Text.lineFeeds (Text.slice source span.start span.stop)
      readFrom
        { tokens := (state.tokens.append kind span state.line).2
          line := min (state.line + feeds) maxLine }
        rest

/-- Read a whole source, or as much of it as comes before an error. -/
def run (source : String) : Lexing :=
  readFrom { tokens := TokenList.empty source } (Lexeme.scan source)

end Lexing

/-- The token list of a source that has no error in it. -/
def TokenList.lex (source : String) : Except LexError TokenList :=
  let lexing := Lexing.run source
  match lexing.error? with
  | some error => .error error
  | none => .ok lexing.tokens

end KernelPrep
