/-
  KernelPrep.Pipeline — the passes that every file goes through.

  Main definitions:
    * `Registry.builtin` — the header first, then the textures;
    * `process`          — a source text through all of them.
-/
import KernelPrep.Pass.Session
import KernelPrep.Prologue
import KernelPrep.Texture.Lowering

namespace KernelPrep

/-- The passes of the library. -/
def Registry.builtin [ContentHash] : Registry :=
  { entries := [⟨"prologue", Prologue.pass⟩, ⟨"texture", Texture.pass⟩] }

/-- The text of a source after all passes. -/
def process [ContentHash] {m : Type → Type} [Monad m] (disk : Disk m) (config : Config)
    (source : String) : m (Except ProcessError String) := do
  match Session.load config source with
  | .error error => return .error error
  | .ok session =>
    match ← session.apply disk .builtin with
    | (.error error, _) => return .error error
    | (.ok (), session) => return .ok session.document.text

end KernelPrep
