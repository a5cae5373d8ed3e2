import TripleSlash.Text.Basic

/-! Paths as users write them: names between slashes. -/
namespace TripleSlash.Path

def isAbsolute (p : Text) : Bool := p.head? == some '/'

/-- What stands between the slashes, some of it perhaps empty. -/
def pieces (p : Text) : List Text := Text.splitAtChars (· == '/') p

/-- What a path says, apart from its spelling. -/
inductive Component where
  | root
  /-- A dot at the start. -/
  | here
  /-- The directory above. -/
  | up
  | name (n : Text)
  deriving DecidableEq, Repr

/-- Repeated slashes, slashes at the end and dots behind the start say nothing. -/
def components (p : Text) : List Component :=
  let ps := pieces p
  let start : List Component :=
    if isAbsolute p then [.root] else if ps.head? = some ".".toList then [.here] else []
  let names := ps.filter fun n => n ≠ [] ∧ n ≠ ".".toList
  start ++ names.map fun n => if n = "..".toList then .up else .name n

/-- Numbers whose order is the order of components. -/
def Component.key : Component → List Nat
  | root => [0]
  | here => [1]
  | up => [2]
  | name n => 3 :: n.map Char.toNat

/-- Paths are in the order of their components, whatever their spelling. -/
def key (p : Text) : List (List Nat) := (components p).map Component.key

def le (p q : Text) : Bool := (compare (key p) (key q)).isLE

/-- Paths in order, of several spellings in a row only the first. -/
def distinct : List Text → List Text
  | p :: q :: ps => if key p = key q then distinct (p :: ps) else p :: distinct (q :: ps)
  | ps => ps

/-- The name of the file that a path is about. -/
def fileName? (p : Text) : Option Text :=
  match (components p).getLast? with
  | some (.name n) => some n
  | _ => none

/-- Whether a path is about a source file: a name in front of the ending `.cs`. -/
def isSource (p : Text) : Bool :=
  (fileName? p).any fun n => ".cs".toList.isSuffixOf n && 3 < n.length

/-- The path of a name in a directory. -/
def join (p name : Text) : Text :=
  if p.isEmpty || p.getLast? == some '/' then p ++ name else p ++ '/' :: name

/-- The path of a name in a directory; names in the directory where one is stand alone. -/
def child (p name : Text) : Text := if components p = [.here] then name else join p name

end TripleSlash.Path
