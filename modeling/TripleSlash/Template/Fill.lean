import TripleSlash.Text.Basic

/-! Templates: texts with holes, each a key between braces. -/
namespace TripleSlash.Template

/-- Values for the holes of a template, by key. -/
abbrev Values := List (Text × Text)

/-- The hole of a key. -/
def hole (key : Text) : Text := '{' :: key ++ ['}']

/-- The value of the hole that an opening brace in front of `t` begins, and how much of `t` is
the rest of that hole. The key reaches to the next closing brace. -/
def holeAt? (values : Values) (t : Text) : Option (Text × Nat) :=
  let key := t.takeWhile (· != '}')
  if key.length < t.length then (values.lookup key).map (·, key.length + 1) else none

/-- Passes over `skip` characters, then puts values for holes. A brace that begins no known hole
stays, and values are not searched for holes. -/
def fillFrom (values : Values) : Nat → Text → Text
  | _, [] => []
  | skip + 1, _ :: t => fillFrom values skip t
  | 0, c :: t =>
    match if c = '{' then holeAt? values t else none with
    | some (value, size) => value ++ fillFrom values size t
    | none => c :: fillFrom values 0 t

/-- Puts a value for every hole whose key has one. -/
def fill (values : Values) (t : Text) : Text := fillFrom values 0 t

end TripleSlash.Template
