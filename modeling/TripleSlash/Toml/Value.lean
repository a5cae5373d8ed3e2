import TripleSlash.Text.Basic

/-! Values of a configuration document, and the tables that its statements build. -/
namespace TripleSlash.Toml

/-- How a table came to be, which decides what may still be added to it. -/
inductive TableKind where
  /-- Named on the way to a table below it. -/
  | implicit
  /-- Named by its own header. -/
  | header
  /-- Named by the dotted key of a value. -/
  | dotted
  /-- Written as a value. -/
  | inline
  deriving DecidableEq, Repr

inductive Value where
  | string (t : Text)
  | boolean (b : Bool)
  /-- A number, a date or a time, as it is written. -/
  | word (t : Text)
  | array (vs : List Value)
  | table (kind : TableKind) (entries : List (Text × Value))
  deriving Repr

/-- The entries of a table in the order in which they were made. -/
abbrev Entries := List (Text × Value)

/-- A line of a document that says something. -/
inductive Statement where
  /-- The values below belong to a table. -/
  | header (path : List Text)
  | value (path : List Text) (v : Value)
  deriving Repr

namespace Entries

/-- Puts a value for a key that is there, in the same place. -/
def replace (es : Entries) (key : Text) (v : Value) : Entries :=
  es.map fun e => if e.1 = key then (key, v) else e

/-- Gives a dotted key its value. Tables on the way may be new, or made by other dotted keys or
for the sake of tables below them. -/
def assign (v : Value) : List Text → Entries → Option Entries
  | [], _ => none
  | [key], es => if (es.lookup key).isSome then none else some (es ++ [(key, v)])
  | key :: path, es =>
    match es.lookup key with
    | none => do return es ++ [(key, .table .dotted (← assign v path []))]
    | some (.table .dotted sub) => do return replace es key (.table .dotted (← assign v path sub))
    | some (.table .implicit sub) => do
      return replace es key (.table .implicit (← assign v path sub))
    | some _ => none

/-- Names a table. Its own header may come once, and only if no dotted key has made it. -/
def define : List Text → Entries → Option Entries
  | [], _ => none
  | [key], es =>
    match es.lookup key with
    | none => some (es ++ [(key, .table .header [])])
    | some (.table .implicit sub) => some (replace es key (.table .header sub))
    | some _ => none
  | key :: path, es =>
    match es.lookup key with
    | none => do return es ++ [(key, .table .implicit (← define path []))]
    | some (.table .inline _) => none
    | some (.table kind sub) => do return replace es key (.table kind (← define path sub))
    | some _ => none

/-- Changes the table at a path. -/
def within (f : Entries → Option Entries) : List Text → Entries → Option Entries
  | [], es => f es
  | key :: path, es =>
    match es.lookup key with
    | some (.table kind sub) => do return replace es key (.table kind (← within f path sub))
    | _ => none

/-- The table of a document: each value goes to the table of the last header above it. -/
def ofStatements? (statements : List Statement) : Option Entries := do
  let step : List Text × Entries → Statement → Option (List Text × Entries)
    | (_, es), .header path => do return (path, ← define path es)
    | (here, es), .value path v => do return (here, ← within (assign v path) here es)
  return (← statements.foldlM step ([], [])).2

end Entries
end TripleSlash.Toml
