import TripleSlash.Text.Basic

/-! Types as a declaration writes them. -/
namespace TripleSlash

/-- A written type: a dotted name, perhaps a bracketed list of arguments, and what follows it. -/
structure TypeRef where
  /-- The whole type. -/
  written : Text
  /-- The dotted name at its start. -/
  base : Text
  /-- The arguments with their angle brackets. -/
  generic : Option Text
  deriving DecidableEq, Repr

namespace TypeRef

/-- The name with its arguments, without marks of null and rank. -/
def full (t : TypeRef) : Text := t.base ++ t.generic.getD []

/-- The arguments without their outer brackets, empty if there are none. -/
def inner (t : TypeRef) : Text :=
  match t.generic with
  | some ('<' :: args) => if args.getLast? = some '>' then args.dropLast else []
  | _ => []

/-- Whether nothing is returned. -/
def isVoid (t : TypeRef) : Bool := t.written == "void".toList

theorem inner_eq {w b args : Text} : inner ⟨w, b, some ('<' :: args ++ ['>'])⟩ = args := by
  simp [inner]

end TypeRef
end TripleSlash
