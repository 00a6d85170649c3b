/-
  KernelPrep.Command.Run — one run of the program.

  A run reads the input file, prepares it or lists its tokens or outline, and writes the
  result to the output file or to standard output.  Failures are reported on standard
  error; nothing is written to the output then.

  Main definitions:
    * `Outcome`             — exit status and what is printed;
    * `Command.listTokens`  — the listing of a source's tokens;
    * `Command.run`         — the run on a disk.
-/
import KernelPrep.Command.Arguments
import KernelPrep.Outline.Dump
import KernelPrep.Pipeline
import KernelPrep.Token.FxHash

namespace KernelPrep

/-- The exit status of a run and what it prints. -/
structure Outcome where
  status : Nat := 0
  stdout : String := ""
  stderr : String := ""
deriving DecidableEq, Repr

namespace Command

/-! ## §1. Listings -/

/-- Spaces in front of a text, up to a width. -/
def padLeft (width : Nat) (text : String) : String :=
  String.ofList (List.replicate (width - text.length) ' ') ++ text

/-- Spaces behind a text, up to a width. -/
def padRight (width : Nat) (text : String) : String :=
  text ++ String.ofList (List.replicate (width - text.length) ' ')

/-- One line for a token: its line, kind and quoted text. -/
def tokenLine (token : Token) : String :=
  padLeft 5 (toString token.line) ++ "  " ++ padRight 12 token.kind.name ++ " "
    ++ Text.quoted token.text ++ "\n"

/-- The tokens of a source, one on each line. -/
def listTokens (source : String) : Except LexError String := do
  let list ← TokenList.lex source
  return "Tokens (" ++ toString list.length ++ "):\n"
    ++ String.join (list.entries.map fun (_, token) => tokenLine token)

/-- The outline of a source, one node on each line. -/
def listTree (config : Config) (source : String) : Except ProcessError String := do
  let doc ← Document.load config source
  return Outline.dump doc.tokens doc.tree

/-! ## §2. Running -/

/-- A failure with one line on standard error. -/
def failure (message : String) : Outcome := { status := 1, stderr := "error: " ++ message ++ "\n" }

/-- What is said about an input file that cannot be read. -/
def readFailure (path : String) : FileError → String
  | .notFound => "cannot find file '" ++ path ++ "'"
  | .permissionDenied => "permission denied reading '" ++ path ++ "'"
  | error => "error reading '" ++ path ++ "': " ++ error.message

/-- A failure with a diagnostic on standard error. -/
def report (args : Arguments) (terminal : Bool) (diagnostic : Diagnostic) : Outcome :=
  let colored := args.color.isColored terminal
  let errors := if diagnostic.isError then 1 else 0
  { status := 1
    stderr := diagnostic.render colored ++ Diagnostic.summary colored errors 0 }

variable {m : Type → Type} [Monad m]

/-- The text that is asked for. -/
def produce [ContentHash] (disk : Disk m) (args : Arguments) (source : String) :
    m (Except ProcessError String) :=
  if args.dumpTokens then return (listTokens source).mapError .lex
  else if args.dumpTree then return listTree args.config source
  else process disk args.config source

/-- Write a result where it is asked for. -/
def deliver (disk : Disk m) (args : Arguments) (text : String) : m Outcome := do
  match args.output? with
  | none => return { stdout := text }
  | some path =>
    match ← disk.write path text.toUTF8 with
    | .ok () => return {}
    | .error error => return failure ("cannot write output: " ++ error.message)

/-- One run.  `terminal` tells whether standard error is a terminal. -/
def run [ContentHash] (disk : Disk m) (args : Arguments) (terminal : Bool) : m Outcome := do
  match ← disk.read args.input with
  | .error error => return failure (readFailure args.input error)
  | .ok bytes =>
    match String.fromUTF8? bytes with
    | none => return failure ("'" ++ args.input ++ "' contains invalid UTF-8 data")
    | some source =>
      match ← produce disk args source with
      | .error error => return report args terminal (error.toDiagnostic args.input)
      | .ok text => deliver disk args text

end Command

end KernelPrep
