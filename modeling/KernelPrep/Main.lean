/-
  KernelPrep.Main — the program.

  Everything is decided by `Arguments.parse` and `Command.run`; here the machine's files
  become a disk, and the outcome is printed.
-/
import KernelPrep.Command.Run

namespace KernelPrep

/-- An error of the machine's files.  Some of its operations negate the number. -/
def FileError.ofMachine : IO.Error → FileError
  | .noFileOrDirectory .. => .notFound
  | .permissionDenied .. => .permissionDenied
  | .inappropriateType _ code _ => if code = 21 then .isDirectory else .notDirectory
  | .invalidArgument _ code details =>
    if code = 36 || code = 0 - 36 then .nameTooLong else .other details
  | error => .other (toString error)

/-- Run an action on a file of the machine and catch its error. -/
def attempt {α : Type} (path : String) (action : IO α) : IO (Except FileError α) := do
  match checkPath path with
  | .error error => return .error error
  | .ok () =>
    try return .ok (← action) catch error => return .error (FileError.ofMachine error)

/-- The machine's files. -/
def machineDisk : Disk IO where
  read path := attempt path (IO.FS.readBinFile path)
  write path content := attempt path (IO.FS.writeBinFile path content)

/-- What is printed instead of a run. -/
def usageText : Usage → String
  | .version => "kppc\n"
  | _ =>
    "Usage: kppc [-o OUTPUT] [--platform PLATFORM] [--prologue PATH] [--binary PATH]\n"
      ++ "            [--color auto|always|never] [--dump-tokens | --dump-tree] INPUT\n"

end KernelPrep

open KernelPrep in
/-- Prepare a kernel file as the command line asks. -/
def main (args : List String) : IO UInt32 := do
  match Arguments.parse args with
  | .error usage =>
    if usage.status = 0 then IO.print (usageText usage) else IO.eprint (usageText usage)
    return usage.status.toUInt32
  | .ok arguments =>
    let terminal ← (← IO.getStderr).isTty
    let outcome ← Command.run machineDisk arguments terminal
    IO.print outcome.stdout
    IO.eprint outcome.stderr
    return outcome.status.toUInt32
