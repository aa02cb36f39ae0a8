/-! Byte offsets and the ranges between them. -/
namespace UiLint

/-- Offsets are words of 64 bits, so they lie below this bound. -/
def offsetBound : Nat := 18446744073709551616

/-- Distances are signed words of 64 bits, so they are taken only between offsets below this
bound. -/
def distanceBound : Nat := 9223372036854775808

/-- The offset moved by a distance, if it stays within bounds. -/
def moveOffset? (offset : Nat) (distance : Int) : Option Nat :=
  let moved := (offset : Int) + distance
  if 0 ≤ moved ∧ moved < offsetBound then some moved.toNat else none

/-- The offset moved by a distance, and held at the bounds. -/
def moveOffsetWithin (offset : Nat) (distance : Int) : Nat :=
  min ((offset : Int) + distance).toNat (offsetBound - 1)

/-- The bytes from `start` up to but not including `stop`. -/
structure Span where
  start : Nat
  stop : Nat
  deriving DecidableEq, Repr, Inhabited

namespace Span

/-- The number of bytes. -/
def length (span : Span) : Nat :=
  span.stop - span.start

/-- Whether no byte lies in the span, also when it ends before it starts. -/
def isEmpty (span : Span) : Bool :=
  span.stop ≤ span.start

/-- Whether the byte at the offset lies in the span. -/
def contains (span : Span) (offset : Nat) : Bool :=
  span.start ≤ offset && offset < span.stop

/-- The span moved by a distance, if both ends stay within bounds. -/
def shifted? (span : Span) (distance : Int) : Option Span :=
  match moveOffset? span.start distance, moveOffset? span.stop distance with
  | some start, some stop => some ⟨start, stop⟩
  | _, _ => none

end Span

end UiLint
