import TripleSlash.Comment.Basic
import TripleSlash.Parens

/-! Comments of declarations whose parameters go on below their first line. -/
namespace TripleSlash.Comment

/-- A comment that waits for the rest of a parameter list. -/
structure Pending where
  /-- The line above which the comment belongs. -/
  insertAt : Nat
  /-- The first line of the declaration. -/
  declaredAt : Nat
  /-- The comment made from the first line. -/
  head : Text
  /-- The entries of the later lines so far. -/
  entries : Text
  newline : Text
  /-- Depth inside the parameter list. -/
  depth : Nat
  deriving DecidableEq, Repr

namespace Pending

/-- Begins to wait behind the first line, whose parameters are `raw`. -/
def start (insertAt declaredAt : Nat) (head raw newline : Text) : Pending :=
  ⟨insertAt, declaredAt, head, [], newline, Parens.depthAfter Parens.opened raw⟩

/-- The comment, with the entries of later lines in the place of the marker. -/
def assembled (p : Pending) : Text := Text.replaceFirst marker p.entries p.head

/-- Adds the part of a line that belongs to the list. -/
def accept (ts : Templates) (p : Pending) (line : Text) : Pending :=
  { p with
    entries := p.entries ++ parameterEntries ts p.newline (Parens.inside p.depth line)
    depth := Parens.depthAfter p.depth line }

/-- The finished comment, if a line closes the list. -/
def finish? (ts : Templates) (p : Pending) (line : Text) : Option Text :=
  if Parens.closes p.depth line then some (p.accept ts line).assembled else none

end Pending
end TripleSlash.Comment
