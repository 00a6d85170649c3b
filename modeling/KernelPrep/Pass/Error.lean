/-
  KernelPrep.Pass.Error — why a file cannot be processed.

  Main definitions:
    * `PassFault`, `PassError` — what goes wrong in a pass, and on which line;
    * `ProcessError`           — what goes wrong with a file, from reading it on.
-/
import KernelPrep.Disk
import KernelPrep.Outline.Error
import KernelPrep.Token.Lex

namespace KernelPrep

/-! ## §1. Passes -/

/-- What goes wrong in a pass. -/
inductive PassFault where
  /-- No `<` follows a texture keyword. -/
  | missingOpenAngle (keyword : String)
  /-- No texel type follows the `<`. -/
  | missingTexelType (keyword : String)
  /-- No `>` follows the texel type. -/
  | missingCloseAngle (keyword : String)
  /-- `signed` or `unsigned` is not followed by exactly one basic type. -/
  | badSignedness (word : String)
  /-- A texture parameter has no name. -/
  | missingParamName (keyword : String)
  /-- A texture does not stand in any construct at file scope. -/
  | noContainer (keyword : String)
  /-- A kernel has no name. -/
  | noFunctionName
  /-- The binding table could not be written. -/
  | tableNotWritten (path : String) (cause : FileError)
  /-- Something holds that should not. -/
  | internal (what : String)
  /-- The token list refused a change. -/
  | splice (error : SpliceError)
deriving DecidableEq, Repr

/-- A fault at a line, or at line zero when it has no place. -/
structure PassError where
  line : Nat
  fault : PassFault
deriving DecidableEq, Repr

namespace PassFault

/-- The wording of the fault. -/
def message : PassFault → String
  | .missingOpenAngle keyword => "expected `<` after `" ++ keyword ++ "`"
  | .missingTexelType keyword => "`" ++ keyword ++ "<>` has no texel type"
  | .missingCloseAngle keyword => "expected `>` to close `" ++ keyword ++ "<`"
  | .badSignedness word => "`" ++ word ++ "` must be followed by a single basic type"
  | .missingParamName keyword => "`" ++ keyword ++ "` parameter has no name"
  | .noContainer keyword => "`" ++ keyword ++ "` is not inside a function or declaration"
  | .noFunctionName => "cannot find the name of the kernel function"
  | .tableNotWritten path _ => "cannot write texture side-table `" ++ path ++ "`"
  | .internal what => "internal error: " ++ what
  | .splice error => error.message

/-- The code of the fault. -/
def code : PassFault → ErrorCode
  | .missingOpenAngle _ => .missingOpenAngle
  | .missingTexelType _ => .missingTexelType
  | .missingCloseAngle _ => .missingCloseAngle
  | .badSignedness _ => .badSignedness
  | .missingParamName _ => .missingParamName
  | .noContainer _ => .noContainer
  | .noFunctionName => .noFunctionName
  | .tableNotWritten .. => .tableNotWritten
  | .internal _ | .splice _ => .brokenInvariant

/-- What is added to explain the fault. -/
def notes : PassFault → List String
  | .tableNotWritten _ cause => [cause.message]
  | .badSignedness _ => ["write e.g. `unsigned int` or `signed char`"]
  | .internal _ | .splice _ => ["this is a bug in kpp"]
  | _ => []

end PassFault

namespace PassError

/-- An internal fault, which has no line. -/
def internal (what : String) : PassError := ⟨0, .internal what⟩

/-- A refused change, which has no line. -/
def ofSplice (error : SpliceError) : PassError := ⟨0, .splice error⟩

/-- The wording of the error, its line first. -/
def message (error : PassError) : String :=
  "line " ++ toString error.line ++ ": " ++ error.fault.message

/-- The error as a diagnostic about `file`. -/
def toDiagnostic (error : PassError) (file : String) : Diagnostic :=
  { Diagnostic.error error.fault.code error.fault.message file error.line with
    notes := error.fault.notes }

end PassError

/-! ## §2. Files -/

/-- What goes wrong with a file. -/
inductive ProcessError where
  | lex (error : LexError)
  | parse (error : ParseError)
  /-- An error in the pass of the given name. -/
  | pass (name : String) (error : PassError)
deriving DecidableEq, Repr

namespace ProcessError

/-- The wording of the error. -/
def message : ProcessError → String
  | .lex error => error.message
  | .parse error => error.message
  | .pass name error => name ++ ": " ++ error.message

/-- The error as a diagnostic about `file`. -/
def toDiagnostic (error : ProcessError) (file : String) : Diagnostic :=
  match error with
  | .lex error => error.toDiagnostic file
  | .parse error => error.toDiagnostic file
  | .pass name error =>
    (error.toDiagnostic file).addNote ("in the `" ++ name ++ "` transform")

end ProcessError

end KernelPrep
