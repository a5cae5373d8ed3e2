import TripleSlash.Document.Line
import TripleSlash.Text.Slice

/-! The lines of a document by their places in its text. A place is counted in bytes. -/
namespace TripleSlash

/-- The place of a line in a text. -/
structure Span where
  start : Nat
  /-- Where the text of the line ends and its line break begins. -/
  stop : Nat
  /-- Where the line break ends, and with it the line. -/
  next : Nat
  deriving DecidableEq, Repr

namespace Span

/-- The line that begins at a byte. It ends behind the next line feed, and at the end of the text
if there is none. -/
def at? (t : Text) (start : Nat) : Option Span :=
  (Text.splitAtByte? start t).map fun (_, rest) =>
    match Text.byteIdxOf? '\n' rest with
    | some n =>
      let feed := start + n
      -- In front of the line feed of an empty line stands nothing of that line.
      if start < feed ∧ t.slice? (feed - 1) feed = some ['\r'] then
        ⟨start, feed - 1, feed + 1⟩
      else ⟨start, feed, feed + 1⟩
    | none => ⟨start, t.byteSize, t.byteSize⟩

theorem start_lt_next {t : Text} {start : Nat} {s : Span} (h : start < t.byteSize)
    (hs : at? t start = some s) : start < s.next := by
  obtain ⟨⟨_, rest⟩, -, rfl⟩ := Option.map_eq_some_iff.mp hs
  dsimp only
  split
  · split <;> exact Nat.lt_succ_of_le (Nat.le_add_right _ _)
  · exact h

/-- The lines of a text from a byte on, if each of them begins with a character. -/
def from? (t : Text) (start : Nat) : Option (List Span) :=
  if _ : start < t.byteSize then
    match _ : at? t start with
    | some s => (from? t s.next).map (s :: ·)
    | none => none
  else some []
termination_by t.byteSize - start
decreasing_by
  have := start_lt_next ‹_› ‹_›
  omega

/-- The lines of a text. -/
def ofText? (t : Text) : Option (List Span) := from? t 0

end Span
end TripleSlash
