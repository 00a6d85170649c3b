/-
  KernelPrep.Pass.Session — running passes over one document.

  A session makes its passes when they are first applied and keeps them from then on.
  Passes run in order; the first error ends the run, and what was changed before stays.
  The binding table that a pass yields is written right after it.

  Main definitions:
    * `Session.load`  — a session for a source text;
    * `Session.apply` — run the passes.
-/
import KernelPrep.Pass.Basic

namespace KernelPrep

/-- A document with the passes made for it. -/
structure Session where
  document : Document
  passes? : Option (List Pass) := none

namespace Session

/-- The names of the passes made so far. -/
def passNames (session : Session) : List String := (session.passes?.getD []).map (·.name)

variable {m : Type → Type} [Monad m]

/-- A session for a source text. -/
def load (config : Config) (source : String) : Except ProcessError Session := do
  return { document := ← Document.load config source }

/-- Write a binding table. -/
def save (disk : Disk m) (file : TableFile) : m (Except PassError Unit) := do
  match ← disk.write file.path file.content with
  | .ok () => return .ok ()
  | .error cause => return .error ⟨0, .tableNotWritten file.path cause⟩

/-- Run one pass and write the binding table that it yields. -/
def runPass (disk : Disk m) (pass : Pass) (doc : Document) :
    m (Except PassError Unit × Document) := do
  match pass.run doc with
  | .error error doc => return (.error error, doc)
  | .ok none doc => return (.ok (), doc)
  -- the document stays changed when the table cannot be written
  | .ok (some file) doc => return (← save disk file, doc)

/-- Run passes in order, up to the first error. -/
def runPasses (disk : Disk m) :
    List Pass → Document → m (Except ProcessError Unit × Document)
  | [], doc => return (.ok (), doc)
  | pass :: rest, doc => do
    match ← runPass disk pass doc with
    | (.error error, doc) => return (.error (.pass pass.name error), doc)
    | (.ok (), doc) => runPasses disk rest doc

/-- Run the passes of the session, made from the registry if there are none yet. -/
def apply (disk : Disk m) (registry : Registry) (session : Session) :
    m (Except ProcessError Unit × Session) := do
  -- a second application finds the passes made, and makes no new ones
  let passes := session.passes?.getD (registry.instantiate session.document.config)
  let (result, document) ← runPasses disk passes session.document
  return (result, { document, passes? := some passes })

/-- A one-line account of the session. -/
def summary (session : Session) : String :=
  let config := session.document.config
  let optional : Option String → String
    | some text => "Some(" ++ Text.quoted text ++ ")"
    | none => "None"
  "Processor \x7b config: ProcessorConfig \x7b file_name: " ++ Text.quoted config.fileName
    ++ ", platform: " ++ config.platform.label
    ++ ", prologue_header: " ++ optional config.prologue?
    ++ ", binary_path: " ++ optional config.tablePath?
    ++ " \x7d, tokens: " ++ toString session.document.tokens.length
    ++ ", nodes: " ++ toString session.document.tree.liveCount
    ++ ", transforms: " ++ Registry.renderNames session.passNames ++ " \x7d"

end Session

end KernelPrep
