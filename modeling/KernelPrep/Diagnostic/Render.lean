/-
  KernelPrep.Diagnostic.Render — diagnostics as terminal text.

  A diagnostic takes a headline, a line for its place, one line per note, and a blank line
  at the end.  Colour is a matter of the painted pieces only: without it the text is the
  same less the escapes.

  Main definitions:
    * `ColorMode.isColored` — whether to colour;
    * `Diagnostic.render`   — one diagnostic;
    * `Diagnostic.summary`  — the closing line.
-/
import KernelPrep.Diagnostic.Basic

namespace KernelPrep

/-- When to colour diagnostics. -/
inductive ColorMode where
  | auto | always | never
deriving DecidableEq, Repr, Inhabited

/-- Whether to colour; `auto` colours on a terminal. -/
def ColorMode.isColored (mode : ColorMode) (terminal : Bool) : Bool :=
  match mode with
  | .auto => terminal
  | .always => true
  | .never => false

namespace Diagnostic

/-! ## §1. Paint -/

/-- What a painted piece of text is. -/
inductive Style where
  | severity (severity : Severity)
  | code
  | location
  | label

/-- The escape that starts a style. -/
def Style.escape : Style → String
  | .severity .error => "\x1b[1;31m"
  | .severity .warning => "\x1b[1;33m"
  | .severity .note => "\x1b[1;36m"
  | .code | .label => "\x1b[1m"
  | .location => "\x1b[1;34m"

/-- A piece of text in a style. -/
def paint (colored : Bool) (style : Style) (text : String) : String :=
  if colored then style.escape ++ text ++ "\x1b[0m" else text

/-! ## §2. Diagnostics -/

/-- One diagnostic, with a blank line at the end. -/
def render (colored : Bool) (d : Diagnostic) : String :=
  let place := match d.location? with
    | some place => "  --> " ++ paint colored .location place ++ "\n"
    | none => ""
  let notes := d.notes.map fun note => "  = " ++ paint colored .label "note" ++ ": " ++ note ++ "\n"
  paint colored (.severity d.severity) d.severity.text
    ++ paint colored .code ("[" ++ d.code.text ++ "]") ++ ": " ++ d.message ++ "\n"
    ++ place ++ String.join notes ++ "\n"

/-! ## §3. The closing line -/

/-- A count with its noun. -/
def counted (count : Nat) (noun : String) : String :=
  if count = 1 then "1 " ++ noun else toString count ++ " " ++ noun ++ "s"

/-- The line that closes a run with the given counts; nothing when both are zero. -/
def summary (colored : Bool) (errors warnings : Nat) : String :=
  let emitted := counted warnings "warning" ++ " emitted"
  if errors = 0 then
    if warnings = 0 then ""
    else paint colored (.severity .warning) "warning" ++ ": " ++ emitted ++ "\n"
  else
    let cause := if errors = 1 then "previous error" else toString errors ++ " previous errors"
    paint colored (.severity .error) "error" ++ ": aborting due to " ++ cause
      ++ (if warnings = 0 then "" else "; " ++ emitted) ++ "\n"

end Diagnostic

end KernelPrep
