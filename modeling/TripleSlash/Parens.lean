import TripleSlash.Text.Basic

/-! Where a parenthesised list ends: at the `)` that takes its depth to zero. -/
namespace TripleSlash.Parens

/-- What a text does to an open list. -/
inductive Result where
  /-- The list stays open at a depth. -/
  | unclosed (depth : Nat)
  /-- The list closes, after some text and before more. -/
  | closed (before after : Text)
  deriving DecidableEq, Repr

/-- Puts a character in front of the text that was read. -/
def Result.cons (c : Char) : Result → Result
  | unclosed depth => unclosed depth
  | closed before after => closed (c :: before) after

/-- Depth behind the `(` that opens a list. -/
def opened : Nat := 1

/-- Reads a text at a depth up to the `)` that closes the list. At depth zero any `)` does. -/
def scan : Nat → Text → Result
  | depth, [] => .unclosed depth
  | depth, '(' :: t => (scan (depth + 1) t).cons '('
  | depth, ')' :: t => if depth ≤ 1 then .closed [] t else (scan (depth - 1) t).cons ')'
  | depth, c :: t => (scan depth t).cons c

/-- Depth left behind a text; zero once the list is closed. -/
def depthAfter (depth : Nat) (t : Text) : Nat :=
  match scan depth t with
  | .unclosed depth => depth
  | .closed _ _ => 0

/-- The part of a text that belongs to the list. -/
def inside (depth : Nat) (t : Text) : Text :=
  match scan depth t with
  | .unclosed _ => t
  | .closed before _ => before

/-- Whether the list closes within a text. -/
def closes (depth : Nat) (t : Text) : Bool :=
  match scan depth t with
  | .unclosed _ => false
  | .closed _ _ => true

end TripleSlash.Parens
