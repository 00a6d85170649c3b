/-
  KernelPrep.Prologue — including the platform header.

  The platform header defines the words that prepared files use, so it is included before
  the first construct of the file.  A file without constructs stays as it is.

  Main definitions:
    * `Prologue.insert` — the edit;
    * `Prologue.pass`   — the pass.
-/
import KernelPrep.Pass.Basic

namespace KernelPrep.Prologue

/-- Put an `#include` of the header before the first construct. -/
def insert (header : String) : Edit Unit := do
  let doc ← get
  match doc.tree.firstChild? NodeTree.root with
  | none => return
  | some first =>
    let line := ((doc.tree.tokens? first).map (doc.tokens.lineOf ·.first)).getD 1
    let pieces := [.punct .hash, .symbol "include", .space, .string header, .eol]
    match ← Edit.addRun line pieces with
    | none => return
    | some run =>
      let _ ← Edit.insertBefore first run
      return

/-- The pass that includes the platform header. -/
def pass (config : Config) : Pass where
  name := "prologue"
  run := do
    insert config.prologue
    return none

end KernelPrep.Prologue
