import TripleSlash.Files.Path

/-! Files and directories, and where in them one is. -/
namespace TripleSlash

/-- What a file holds: a text, or bytes that encode none. -/
inductive Content where
  | text (t : Text)
  | bytes (bs : List UInt8)
  deriving DecidableEq, Repr

inductive Node where
  | directory
  | file (c : Content)
  deriving DecidableEq, Repr

/-- Where a node is: the names on the way from the root. -/
abbrev Location := List Text

/-- Why a path leads to no text. -/
inductive PathError where
  | notFound
  | notDirectory
  | isDirectory
  | notText
  deriving DecidableEq, Repr

def PathError.message : PathError → String
  | notFound => "No such file or directory (os error 2)"
  | notDirectory => "Not a directory (os error 20)"
  | isDirectory => "Is a directory (os error 21)"
  | notText => "stream did not contain valid UTF-8"

/-- All nodes but the root, which is a directory. -/
structure Disk where
  nodes : List (Location × Node)
  /-- The directory where one is. -/
  cwd : Location

namespace Disk

def node? (d : Disk) (here : Location) : Option Node :=
  if here.isEmpty then some .directory else d.nodes.lookup here

/-- Puts a file where none is, or in place of the one that is there. -/
def put (d : Disk) (here : Location) (c : Content) : Disk :=
  { d with nodes := (here, .file c) :: d.nodes.filter (·.1 ≠ here) }

theorem node?_put_self {d : Disk} {here : Location} {c : Content} (h : here ≠ []) :
    (d.put here c).node? here = some (.file c) := by
  simp [node?, put, h]

theorem lookup_filter_ne {here other : Location} (nodes : List (Location × Node))
    (h : other ≠ here) : (nodes.filter (·.1 ≠ here)).lookup other = nodes.lookup other := by
  induction nodes with
  | nil => rfl
  | cons n nodes ih =>
    obtain ⟨loc, node⟩ := n
    by_cases hn : loc = here
    · have hne : (other == loc) = false := by simpa [hn] using h
      rw [List.filter_cons_of_neg (by simp [hn]), ih, List.lookup_cons, hne]
    · rw [List.filter_cons_of_pos (by simp [hn]), List.lookup_cons, List.lookup_cons, ih]

/-- All that is elsewhere stays as it is. -/
theorem node?_put_of_ne {d : Disk} {here other : Location} {c : Content} (h : other ≠ here) :
    (d.put here c).node? other = d.node? other := by
  have : (other == here) = false := by simpa using h
  simp only [node?, put, List.lookup_cons, this]
  rw [lookup_filter_ne d.nodes h]

/-- Follows one piece of a path out of a directory. -/
def follow (d : Disk) (here : Location) (piece : Text) : Except PathError Location :=
  match d.node? here with
  | some .directory =>
    if piece = [] ∨ piece = ".".toList then .ok here
    else if piece = "..".toList then .ok here.dropLast
    else if (d.node? (here ++ [piece])).isSome then .ok (here ++ [piece])
    else .error .notFound
  | some (.file _) => .error .notDirectory
  | none => .error .notFound

/-- Where a path begins. -/
def start (d : Disk) (p : Text) : Location := if Path.isAbsolute p then [] else d.cwd

/-- Follows a path to the node that it is about. -/
def locate (d : Disk) (p : Text) : Except PathError Location :=
  if p.isEmpty then .error .notFound else (Path.pieces p).foldlM d.follow (d.start p)

def exists? (d : Disk) (p : Text) : Bool := (d.locate p).isOk

def isDirectory (d : Disk) (p : Text) : Bool :=
  match d.locate p with
  | .ok here => d.node? here == some .directory
  | .error _ => false

def isFile (d : Disk) (p : Text) : Bool :=
  match d.locate p with
  | .ok here => (d.node? here).any (· != .directory)
  | .error _ => false

/-- The text of a file. -/
def read (d : Disk) (p : Text) : Except PathError Text := do
  match d.node? (← d.locate p) with
  | some (.file (.text t)) => return t
  | some (.file (.bytes _)) => throw .notText
  | some .directory => throw .isDirectory
  | none => throw .notFound

/-- Where a file with a path can be written, if it can. A new file needs a name, and a directory
that is there. -/
def place? (d : Disk) (p : Text) : Option Location :=
  match d.locate p with
  | .ok here => if d.node? here = some .directory then none else some here
  | .error .notFound =>
    match (Path.pieces p).getLast?, (Path.pieces p).dropLast.foldlM d.follow (d.start p) with
    | some name, .ok dir =>
      if name ∈ [[], ".".toList, "..".toList] ∨ d.node? dir ≠ some .directory then none
      else some (dir ++ [name])
    | _, _ => none
  | .error _ => none

/-- Writes a text to a file, which need not be there before. There are no permissions, so a file
that can be read can be written. -/
def write? (d : Disk) (p t : Text) : Option Disk :=
  (d.place? p).map fun here => d.put here (.text t)

/-- The ways down from a location to all that is below it. -/
def below (d : Disk) (here : Location) : List (List Text) :=
  d.nodes.filterMap fun (loc, _) =>
    if here.isPrefixOf loc && here.length < loc.length then some (loc.drop here.length) else none

/-- The paths of all that is below a directory. -/
def descendants (d : Disk) (p : Text) : List Text :=
  match d.locate p with
  | .ok here => (d.below here).map fun names => names.foldl Path.child p
  | .error _ => []

/-- The paths of all that is in a directory. -/
def children (d : Disk) (p : Text) : List Text :=
  match d.locate p with
  | .ok here => ((d.below here).filter (·.length = 1)).map fun names => names.foldl Path.child p
  | .error _ => []

end Disk
end TripleSlash
