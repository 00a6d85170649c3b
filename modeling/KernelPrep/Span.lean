/-
  KernelPrep.Span — ranges of bytes in a source text.

  Main definitions:
    * `Span`          — start (inclusive) and stop (exclusive);
    * `Span.ofLength` — the span of a given length from a given start.
-/

namespace KernelPrep

/-- A range of bytes, from `start` up to but not including `stop`. -/
structure Span where
  start : Nat := 0
  stop : Nat := 0
deriving DecidableEq, Repr, Inhabited

namespace Span

/-- The span of `len` bytes that begins at `start`. -/
def ofLength (start len : Nat) : Span := ⟨start, start + len⟩

/-- The number of bytes. -/
def length (span : Span) : Nat := span.stop - span.start

/-- Whether the span holds no byte. -/
def isEmpty (span : Span) : Bool := span.start == span.stop

/-- The written form `start..stop`. -/
def render (span : Span) : String := toString span.start ++ ".." ++ toString span.stop

@[simp] theorem length_ofLength (start len : Nat) : (Span.ofLength start len).length = len := by
  simp [ofLength, length]

end Span

end KernelPrep
