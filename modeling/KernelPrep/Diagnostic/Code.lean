/-
  KernelPrep.Diagnostic.Code — the numbered kinds of failures.

  Each kind has a code such as `E1001`, whose first digit tells the phase that fails.

  Main definitions:
    * `ErrorCode`        — the kinds;
    * `ErrorCode.text`   — their codes, `ErrorCode.ofText?` the way back;
    * `ErrorCode.phase`  — the phase.

  Main statement: `ErrorCode.ofText?_text` — a code reads back as its kind.
-/

namespace KernelPrep

/-- A kind of failure. -/
inductive ErrorCode where
  | unterminatedString | illegalCharacter | unterminatedComment | interiorNull
  | unexpectedToken | unbalanced | unexpectedEnd
  | missingOpenAngle | missingTexelType | missingCloseAngle | badSignedness | missingParamName
  | noContainer | noFunctionName
  | tableNotWritten
  | brokenInvariant
deriving DecidableEq, Repr, Inhabited

/-- The part of the work in which a failure arises. -/
inductive Phase where
  | lexer | parser | transform | io | internal
deriving DecidableEq, Repr

namespace ErrorCode

/-- All kinds, in the order of their codes. -/
def all : List ErrorCode :=
  [.unterminatedString, .illegalCharacter, .unterminatedComment, .interiorNull,
    .unexpectedToken, .unbalanced, .unexpectedEnd,
    .missingOpenAngle, .missingTexelType, .missingCloseAngle, .badSignedness,
    .missingParamName, .noContainer, .noFunctionName, .tableNotWritten, .brokenInvariant]

/-- The code as it is written. -/
def text : ErrorCode → String
  | .unterminatedString => "E0001"
  | .illegalCharacter => "E0002"
  | .unterminatedComment => "E0003"
  | .interiorNull => "E0004"
  | .unexpectedToken => "E1001"
  | .unbalanced => "E1002"
  | .unexpectedEnd => "E1003"
  | .missingOpenAngle => "E2001"
  | .missingTexelType => "E2002"
  | .missingCloseAngle => "E2003"
  | .badSignedness => "E2004"
  | .missingParamName => "E2005"
  | .noContainer => "E2006"
  | .noFunctionName => "E2007"
  | .tableNotWritten => "E3001"
  | .brokenInvariant => "E9001"

/-- A short account of the kind. -/
def description : ErrorCode → String
  | .unterminatedString => "unterminated string literal"
  | .illegalCharacter => "illegal character"
  | .unterminatedComment => "unterminated block comment"
  | .interiorNull => "NUL byte in source"
  | .unexpectedToken => "unexpected token"
  | .unbalanced => "unbalanced delimiters"
  | .unexpectedEnd => "unexpected end of input"
  | .missingOpenAngle => "texture keyword without `<`"
  | .missingTexelType => "texture without texel type"
  | .missingCloseAngle => "texture without closing `>`"
  | .badSignedness => "bad signed/unsigned texel type"
  | .missingParamName => "texture parameter without a name"
  | .noContainer => "texture outside any container"
  | .noFunctionName => "function without a name"
  | .tableNotWritten => "side-table write failed"
  | .brokenInvariant => "internal invariant broken"

/-- The phase in which the failure arises. -/
def phase : ErrorCode → Phase
  | .unterminatedString | .illegalCharacter | .unterminatedComment | .interiorNull => .lexer
  | .unexpectedToken | .unbalanced | .unexpectedEnd => .parser
  | .missingOpenAngle | .missingTexelType | .missingCloseAngle | .badSignedness
  | .missingParamName | .noContainer | .noFunctionName => .transform
  | .tableNotWritten => .io
  | .brokenInvariant => .internal

/-- The kind of a code, whose letter may be of either case.  Codes consist of `E` and
    digits, and `e` is the only other character with one of these as capital, so the ASCII
    capitals are enough. -/
def ofText? (code : String) : Option ErrorCode :=
  all.find? (·.text == code.map Char.toUpper)

/-- A code reads back as its kind. -/
theorem ofText?_text (code : ErrorCode) : ofText? code.text = some code := by
  cases code <;> decide +kernel

end ErrorCode

end KernelPrep
