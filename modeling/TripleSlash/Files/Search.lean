import TripleSlash.Files.Disk
import TripleSlash.Files.Wildcard

/-! Files found by patterns. A pattern is a path whose names may be wildcards. -/
namespace TripleSlash.Search

open Wildcard

/-- The names that only a pattern with a dot in front finds. -/
def dots : List Text := [".", ".."]

/-- All paths that continue a path and fit the rest of a pattern. A name without wildcards need
not be searched for. -/
def extend (d : Disk) : List Component → Text → List Text
  | [], p => [p]
  | [.anyDepth], p => (d.descendants p).filter d.isDirectory
  | .anyDepth :: .anyDepth :: rest, p => extend d (.anyDepth :: rest) p
  | .anyDepth :: .name tokens :: rest, p =>
    ((d.descendants p).filter fun q => (Path.fileName? q).any (fits tokens)).flatMap
      (extend d rest)
  | .name tokens :: rest, p =>
    match literal? tokens with
    | some name =>
      let found := if name ∈ dots then d.isDirectory p else d.exists? (Path.child p name)
      if found then extend d rest (Path.child p name) else []
    | none =>
      if d.isDirectory p then
        let special :=
          if tokens.head? = some (.char '.') then (dots.filter (fits tokens)).map (Path.join p)
          else []
        let named := (d.children p).filter fun q => (Path.fileName? q).any (fits tokens)
        (special ++ named).flatMap (extend d rest)
      else []

/-- The components of a pattern, if it is one. A slash at the end adds none. -/
def components? (pattern : Text) : Option (List Component) :=
  let body := if Path.isAbsolute pattern then pattern.drop 1 else pattern
  let pieces := Path.pieces body
  let pieces := if 1 < pieces.length ∧ pieces.getLast? = some [] then pieces.dropLast else pieces
  pieces.mapM component?

/-- The paths that fit a pattern; only directories if it ends in a slash. -/
def paths? (d : Disk) (pattern : Text) : Option (List Text) := do
  let components ← components? pattern
  let found := extend d components (if Path.isAbsolute pattern then "/" else ".")
  return if pattern.getLast? = some '/' then found.filter d.isDirectory else found

/-- What an input stands for. -/
inductive Input where
  | file
  /-- A file that is no source file. -/
  | otherFile
  /-- What a pattern finds; for a directory, all below it. -/
  | pattern (t : Text)
  deriving DecidableEq, Repr

def Input.of (d : Disk) (input : Text) : Input :=
  if d.isFile input then if Path.isSource input then file else otherFile
  else if d.isDirectory input then
    pattern ((input.reverse.dropWhile (· == '/')).reverse ++ "/**/*.cs".toList)
  else pattern input

/-- The source files among some paths. -/
def sources (d : Disk) (ps : List Text) : List Text :=
  ps.filter fun p => d.isFile p && Path.isSource p

/-- Paths in order, each in one spelling. -/
def sorted (ps : List Text) : List Text := Path.distinct (ps.mergeSort Path.le)

end TripleSlash.Search
