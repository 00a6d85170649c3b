/-
  KernelPrep.Diagnostic.Basic — messages about a file.

  Main definitions:
    * `Diagnostic`          — code, severity, message, place and notes;
    * `Diagnostic.error`    — an error at a line of a file;
    * `Diagnostic.location?`— the place as text.
-/
import KernelPrep.Diagnostic.Code

namespace KernelPrep

/-- How serious a message is. -/
inductive Severity where
  | error | warning | note
deriving DecidableEq, Repr

/-- The word for a severity. -/
def Severity.text : Severity → String
  | .error => "error"
  | .warning => "warning"
  | .note => "note"

/-- A message with its place and notes. -/
structure Diagnostic where
  code : ErrorCode
  severity : Severity := .error
  message : String := ""
  file? : Option String := none
  /-- The line, counted from one, where it is known. -/
  line? : Option Nat := none
  notes : List String := []
deriving DecidableEq, Repr

namespace Diagnostic

/-- A line number, where zero stands for an unknown line. -/
def lineOf? (line : Nat) : Option Nat := if line = 0 then none else some line

/-- An error at a line of a file. -/
def error (code : ErrorCode) (message file : String) (line : Nat) : Diagnostic :=
  { code, message, file? := some file, line? := lineOf? line }

/-- Add a note behind the others. -/
def addNote (diagnostic : Diagnostic) (note : String) : Diagnostic :=
  { diagnostic with notes := diagnostic.notes ++ [note] }

/-- Whether the message is an error. -/
def isError (diagnostic : Diagnostic) : Bool := diagnostic.severity == .error

/-- The place as `file:line`, `file` or `line N`. -/
def location? (diagnostic : Diagnostic) : Option String :=
  match diagnostic.file?, diagnostic.line? with
  | some file, some line => some (file ++ ":" ++ toString line)
  | some file, none => some file
  | none, some line => some ("line " ++ toString line)
  | none, none => none

/-- The message on one line, without its place. -/
def headline (diagnostic : Diagnostic) : String :=
  diagnostic.severity.text ++ "[" ++ diagnostic.code.text ++ "]: " ++ diagnostic.message

end Diagnostic

end KernelPrep
