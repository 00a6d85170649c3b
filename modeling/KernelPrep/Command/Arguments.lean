/-
  KernelPrep.Command.Arguments — the command line.

  Arguments are read from left to right.  The value of an option, and the input file, are
  looked at only when the next argument is recognised or the arguments end; an argument
  that is not recognised is therefore reported before a bad value in front of it.

  Main definitions:
    * `Arguments`       — what the user asks for;
    * `Usage`           — why the program does not start with its work;
    * `Arguments.parse` — the reading.
-/
import KernelPrep.Diagnostic.Render
import KernelPrep.Platform

namespace KernelPrep

/-- What the user asks for. -/
structure Arguments where
  input : String
  output? : Option String := none
  platform : Platform := .cuda
  prologue? : Option String := none
  table? : Option String := none
  color : ColorMode := .auto
  dumpTokens : Bool := false
  dumpTree : Bool := false
deriving DecidableEq, Repr

/-- The configuration for the input file. -/
def Arguments.config (args : Arguments) : Config :=
  { fileName := args.input, platform := args.platform, prologue? := args.prologue?,
    tablePath? := args.table? }

/-- Why the program does not start with its work. -/
inductive Usage where
  /-- No input file is given. -/
  | missingInput
  /-- An argument is not known, or is one too many. -/
  | unknownArgument
  /-- A value is missing, empty where a path is needed, or not one of those allowed. -/
  | invalidValue
  /-- A value does not name a platform. -/
  | unknownPlatform
  /-- Arguments exclude each other, or one is repeated. -/
  | conflict
  /-- A switch is given a value. -/
  | unwantedValue
  | help
  | version
deriving DecidableEq, Repr

/-- The exit status: asking for help or the version is no failure. -/
def Usage.status : Usage → Nat
  | .help | .version => 0
  | _ => 2

namespace Arguments

/-! ## §1. What is given so far -/

/-- The arguments that take a value. -/
inductive Slot where
  | input | output | platform | prologue | table | color
deriving DecidableEq, Repr

/-- The arguments that take none. -/
inductive Switch where
  | dumpTokens | dumpTree | help | version
deriving DecidableEq, Repr

/-- How far the reading has come. -/
structure Draft where
  input? : Option String := none
  output? : Option String := none
  platform? : Option Platform := none
  prologue? : Option String := none
  table? : Option String := none
  color? : Option ColorMode := none
  dumpTokens : Bool := false
  dumpTree : Bool := false
  /-- The slot that is given last, with its value once that was met. -/
  pending? : Option (Slot × Option String) := none
  /-- Whether the next argument may be the value of the pending slot. -/
  wantsValue : Bool := false
  /-- Whether a file was named. -/
  hasInput : Bool := false
  /-- Whether `--` was met, behind which there are only files. -/
  filesOnly : Bool := false

/-- A path, which must not be empty. -/
def path (value : String) : Except Usage String :=
  if value.isEmpty then .error .invalidValue else .ok value

/-- The colour mode of a name. -/
def colorMode : String → Except Usage ColorMode
  | "auto" => .ok .auto
  | "always" => .ok .always
  | "never" => .ok .never
  | _ => .error .invalidValue

/-- The platform of a name. -/
def platformNamed (name : String) : Except Usage Platform :=
  match Platform.ofName? name with
  | some platform => .ok platform
  | none => .error .unknownPlatform

/-- Refuse a slot that is filled already. -/
def once {α : Type} (filled? : Option α) : Except Usage Unit :=
  if filled?.isSome then .error .conflict else .ok ()

/-- Fill a slot. -/
def Draft.fill (draft : Draft) (slot : Slot) (value : String) : Except Usage Draft := do
  match slot with
  | .input => once draft.input?; return { draft with input? := some (← path value) }
  | .output => once draft.output?; return { draft with output? := some (← path value) }
  | .platform =>
    once draft.platform?; return { draft with platform? := some (← platformNamed value) }
  | .prologue => once draft.prologue?; return { draft with prologue? := some value }
  | .table => once draft.table?; return { draft with table? := some (← path value) }
  | .color => once draft.color?; return { draft with color? := some (← colorMode value) }

/-- Fill the pending slot, which must have got its value. -/
def Draft.settle (draft : Draft) : Except Usage Draft :=
  let rest := { draft with pending? := none, wantsValue := false }
  match draft.pending? with
  | none => .ok rest
  | some (_, none) => .error .invalidValue
  | some (slot, some value) => rest.fill slot value

/-! ## §2. One argument -/

/-- The slot of an option, by its long name. -/
def slotNamed? : String → Option Slot
  | "output" => some .output
  | "platform" => some .platform
  | "prologue" => some .prologue
  | "binary" => some .table
  | "color" => some .color
  | _ => none

/-- The switch of a long name. -/
def switchNamed? : String → Option Switch
  | "dump-tokens" => some .dumpTokens
  | "dump-tree" => some .dumpTree
  | "help" => some .help
  | "version" => some .version
  | _ => none

/-- An option, with its value if that is attached to it. -/
def Draft.option (draft : Draft) (slot : Slot) (value? : Option String) : Except Usage Draft := do
  let draft ← draft.settle
  match value? with
  | some value => draft.fill slot value
  | none => return { draft with pending? := some (slot, none), wantsValue := true }

/-- A switch. -/
def Draft.turnOn (draft : Draft) (switch : Switch) : Except Usage Draft := do
  let draft ← draft.settle
  match switch with
  | .help => throw .help
  | .version => throw .version
  | .dumpTokens =>
    if draft.dumpTokens then throw .conflict else return { draft with dumpTokens := true }
  | .dumpTree =>
    if draft.dumpTree then throw .conflict else return { draft with dumpTree := true }

/-- The characters before and behind the first `=`. -/
def splitEquals (chars : List Char) : String × Option String :=
  let name := String.ofList (chars.takeWhile (· != '='))
  match chars.dropWhile (· != '=') with
  | [] => (name, none)
  | _ :: value => (name, some (String.ofList value))

/-- An argument that starts with `--`, given without the dashes. -/
def Draft.long (draft : Draft) (chars : List Char) : Except Usage Draft :=
  let (name, value?) := splitEquals chars
  match slotNamed? name, switchNamed? name with
  | some slot, _ => draft.option slot value?
  -- a switch with a value is refused before the pending slot is settled
  | none, some switch => if value?.isSome then .error .unwantedValue else draft.turnOn switch
  | none, none => .error .unknownArgument

/-- An argument that starts with one `-`, given without it.  An attached value may have an
    `=` in front. -/
def Draft.short (draft : Draft) : List Char → Except Usage Draft
  | 'o' :: [] => draft.option .output none
  | 'o' :: '=' :: value => draft.option .output (some (String.ofList value))
  | 'o' :: value => draft.option .output (some (String.ofList value))
  | 'h' :: _ => draft.turnOn .help
  | 'V' :: _ => draft.turnOn .version
  | _ => .error .unknownArgument

/-- The name of a file; only one is taken. -/
def Draft.file (draft : Draft) (name : String) : Except Usage Draft := do
  -- a second file is refused before the pending value is looked at
  if draft.hasInput then throw .unknownArgument
  let draft ← draft.settle
  return { draft with pending? := some (.input, some name), hasInput := true }

/-- One argument. -/
def Draft.step (draft : Draft) (arg : String) : Except Usage Draft :=
  if draft.filesOnly then draft.file arg
  else
    match arg.toList with
    | ['-', '-'] => .ok { draft with filesOnly := true }
    | '-' :: '-' :: chars => draft.long chars
    | '-' :: c :: chars => draft.short (c :: chars)
    | _ =>
      if draft.wantsValue then
        .ok { draft with
          pending? := draft.pending?.map fun (slot, _) => (slot, some arg)
          wantsValue := false }
      else draft.file arg

/-! ## §3. All arguments -/

/-- Check what is given as a whole: the two listings exclude each other, and a file is
    needed. -/
def Draft.finish (draft : Draft) : Except Usage Arguments := do
  let draft ← draft.settle
  if draft.dumpTokens && draft.dumpTree then throw .conflict
  match draft.input? with
  | none => throw .missingInput
  | some input =>
    return {
      input
      output? := draft.output?
      platform := draft.platform?.getD .cuda
      prologue? := draft.prologue?
      table? := draft.table?
      color := draft.color?.getD .auto
      dumpTokens := draft.dumpTokens
      dumpTree := draft.dumpTree }

/-- The arguments of a command line. -/
def parse (args : List String) : Except Usage Arguments := do
  (← args.foldlM Draft.step {}).finish

end Arguments

end KernelPrep
