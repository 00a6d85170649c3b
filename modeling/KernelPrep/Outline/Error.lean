/-
  KernelPrep.Outline.Error — why a file has no outline.

  Main definitions:
    * `ParseFault` — what is wrong;
    * `ParseError` — a fault at a line.
-/
import KernelPrep.Diagnostic.Basic
import KernelPrep.Token.Kind

namespace KernelPrep

/-- What is wrong with the order of tokens. -/
inductive ParseFault where
  /-- A token stands where another is needed. -/
  | unexpected (found expected : TokenKind)
  /-- A delimiter closes nothing. -/
  | unbalanced (found : TokenKind)
  /-- The file ends inside a construct. -/
  | unexpectedEnd (expected : TokenKind)
deriving DecidableEq, Repr

/-- A fault at a line. -/
structure ParseError where
  line : Nat
  fault : ParseFault
deriving DecidableEq, Repr

namespace ParseFault

/-- The wording of the fault. -/
def message : ParseFault → String
  | .unexpected found expected => "expected " ++ expected.describe ++ ", found " ++ found.describe
  | .unbalanced found => "unbalanced " ++ found.describe
  | .unexpectedEnd expected => "unexpected end of input, expected " ++ expected.describe

/-- The code of the fault. -/
def code : ParseFault → ErrorCode
  | .unexpected .. => .unexpectedToken
  | .unbalanced .. => .unbalanced
  | .unexpectedEnd .. => .unexpectedEnd

end ParseFault

namespace ParseError

/-- The wording of the error, its line first. -/
def message (error : ParseError) : String :=
  "line " ++ toString error.line ++ ": " ++ error.fault.message

/-- The error as a diagnostic about `file`. -/
def toDiagnostic (error : ParseError) (file : String) : Diagnostic :=
  Diagnostic.error error.fault.code error.fault.message file error.line

end ParseError

end KernelPrep
