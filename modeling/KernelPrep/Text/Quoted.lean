/-
  KernelPrep.Text.Quoted — text in double quotes, with escapes.

  Quotes, backslashes and the common control characters have short escapes; every other
  character that does not show on its own is written by its code point in hexadecimal.

  Main definitions:
    * `Text.escapeChar` — one character;
    * `Text.quoted`     — a whole text.
-/
import KernelPrep.Text.Printable

namespace KernelPrep.Text

/-- The character as it stands in quoted text. -/
def escapeChar (c : Char) : String :=
  match c with
  | '"' => "\\\""
  | '\\' => "\\\\"
  | '\n' => "\\n"
  | '\r' => "\\r"
  | '\t' => "\\t"
  | '\x00' => "\\0"
  | c =>
    if isPrintable c then c.toString
    else "\\u\x7b" ++ String.ofList (Nat.toDigits 16 c.toNat) ++ "\x7d"

/-- A text in double quotes. -/
def quoted (text : String) : String :=
  "\"" ++ String.join (text.toList.map escapeChar) ++ "\""

end KernelPrep.Text
