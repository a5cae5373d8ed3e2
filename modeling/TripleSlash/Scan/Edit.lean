import TripleSlash.Text.Basic

/-! Edits of a sequence of lines. -/
namespace TripleSlash

/-- A change at a line, counted from zero. -/
inductive Edit where
  /-- Puts a text in front of a line. -/
  | insert (line : Nat) (text : Text)
  /-- Takes out a line and its line break. -/
  | delete (line : Nat)
  deriving DecidableEq, Repr

namespace Edit

def line : Edit → Nat
  | insert n _ => n
  | delete n => n

end Edit
end TripleSlash
