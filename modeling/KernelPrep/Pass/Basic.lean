/-
  KernelPrep.Pass.Basic — passes over a document and the registry of them.

  Main definitions:
    * `Pass`             — a named edit, which may yield a binding table to be written;
    * `Registry`         — passes by name, in the order in which they run;
    * `Registry.register`, `Registry.instantiate` — filling and using it.
-/
import KernelPrep.Document
import KernelPrep.Text.Quoted
import KernelPrep.Texture.BindingTable

namespace KernelPrep

/-! ## §1. Passes -/

/-- A binding table that is to be written to a file. -/
structure TableFile where
  path : String
  kernels : List KernelTextures
deriving DecidableEq, Repr

/-- The content of the file. -/
def TableFile.content (file : TableFile) : ByteArray := ⟨(BindingTable.encode file.kernels).toArray⟩

/-- One pass over a document. -/
structure Pass where
  name : String
  run : Edit (Option TableFile)

/-! ## §2. Registries -/

/-- A pass made for a configuration, under the name by which it is registered. -/
structure Registry.Entry where
  name : String
  make : Config → Pass

/-- Passes in the order in which they run, each under a name of its own. -/
structure Registry where
  entries : List Registry.Entry := []

namespace Registry

/-- The registered names, in order. -/
def names (registry : Registry) : List String := registry.entries.map (·.name)

/-- Whether a name is taken. -/
def contains (registry : Registry) (name : String) : Bool := registry.names.contains name

/-- Add a pass under a name.  A name that is taken keeps its pass, and the answer is
    `false`. -/
def register (registry : Registry) (name : String) (make : Config → Pass) : Bool × Registry :=
  if registry.contains name then (false, registry)
  else (true, ⟨registry.entries ++ [⟨name, make⟩]⟩)

/-- The pass of a name, made for a configuration. -/
def create? (registry : Registry) (name : String) (config : Config) : Option Pass :=
  (registry.entries.find? (·.name == name)).map (·.make config)

/-- All passes, made for a configuration, in order. -/
def instantiate (registry : Registry) (config : Config) : List Pass :=
  registry.entries.map (·.make config)

/-- Quoted names in brackets. -/
def renderNames (names : List String) : String :=
  "[" ++ ", ".intercalate (names.map Text.quoted) ++ "]"

/-- A one-line account of the registry. -/
def summary (registry : Registry) : String :=
  "TransformRegistry \x7b names: " ++ renderNames registry.names ++ ", .. \x7d"

end Registry

end KernelPrep
