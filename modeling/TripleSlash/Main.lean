import TripleSlash.CommandLine.Reply

/-! The program: takes what a run needs from the file system, and writes back what it changed. -/
namespace TripleSlash.CommandLine

/-- The paths and patterns that a command is about. -/
def Invocation.paths (i : Invocation) : List Text :=
  i.config.getD defaultConfig ::
    match i.command with
    | .generate _ _ inputs => inputs
    | .onSave file => [file]
    | .init _ => []

/-- Where a path leads, or where the search for a pattern begins. -/
def origin (cwd : Location) (p : Text) : Location :=
  let literal := (Path.pieces p).takeWhile fun n => !n.any (· ∈ ['*', '?', '['])
  literal.foldl
    (fun here n =>
      if n = [] ∨ n = ".".toList then here else if n = "..".toList then here.dropLast
      else here ++ [n])
    (if Path.isAbsolute p then [] else cwd)

def pathTo (here : Location) : String := String.ofList ('/' :: ['/'].intercalate here)

def contentOf (bytes : ByteArray) : Content :=
  match String.fromUTF8? bytes with
  | some s => .text s.toList
  | none => .bytes bytes.toList

/-- A file is loaded with its text only where the text can matter. -/
def loadFile (named : Bool) (here : Location) : IO Node := do
  if named || here.getLast?.any Path.isSource then
    return .file (contentOf (← IO.FS.readBinFile (pathTo here)))
  else return .file (.bytes [])

/-- Loads a node and all that is below it. Links to directories are not followed. -/
partial def loadTree (named : Bool) (here : Location) : IO (List (Location × Node)) := do
  let path := (← IO.currentDir) / pathTo here
  if ← path.isDir then
    let mut nodes := [(here, Node.directory)]
    for entry in ← path.readDir do
      let below := here ++ [entry.fileName.toList]
      if (← entry.path.symlinkMetadata).type == .symlink && (← entry.path.isDir) then
        nodes := (below, .directory) :: nodes
      else nodes := (← loadTree false below) ++ nodes
    return nodes
  else if ← path.pathExists then return [(here, ← loadFile named here)]
  else return []

/-- Loads the nodes on the way to a location, without what else is below them. -/
def loadWay (here : Location) : IO (List (Location × Node)) := do
  let mut nodes := []
  for n in List.range here.length do
    let path := (← IO.currentDir) / pathTo (here.take n)
    if ← path.isDir then nodes := (here.take n, .directory) :: nodes
    else if ← path.pathExists then nodes := (here.take n, .file (.bytes [])) :: nodes
  return nodes

/-- Loads all that a command can reach. What is loaded with its text goes first. -/
def loadDisk (i : Invocation) : IO Disk := do
  let cwd := (Path.pieces (← IO.currentDir).toString.toList).filter (· ≠ [])
  let origins := i.paths.map (origin cwd)
  let trees ← origins.mapM (loadTree true)
  let ways ← (cwd :: origins).mapM loadWay
  let nodes := trees.flatten ++ [(cwd, .directory)] ++ ways.flatten
  let texts := nodes.filter fun (_, node) => node != .file (.bytes [])
  return ⟨texts ++ nodes, cwd⟩

def loadInput : IO Content := return contentOf (← (← IO.getStdin).readBinToEnd)

/-- Writes the files that differ from what was loaded. -/
def store (before after : Disk) : IO Unit :=
  for (here, node) in after.nodes do
    if before.node? here != some node then
      if let .file (.text t) := node then
        IO.FS.writeFile (pathTo here) (String.ofList t)

/-- Does what the arguments say. -/
def serve (args : List Text) : IO UInt32 := do
  let none := Disk.mk [] []
  let (before, input) ← match Invocation.parse args with
    | .error _ => pure (none, Content.text [])
    | .ok i => pure (← loadDisk i, ← if i.command.readsInput then loadInput else pure (.text []))
  let r := reply args before input
  store before r.disk
  IO.print (String.ofList r.printed)
  for line in r.told do IO.eprintln (String.ofList line)
  return r.status.toUInt32

end TripleSlash.CommandLine

def main (args : List String) : IO UInt32 := TripleSlash.CommandLine.serve (args.map String.toList)
