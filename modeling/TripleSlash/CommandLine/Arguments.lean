import TripleSlash.Scan.Step

/-! The arguments of the command line, read from left to right. A command has arguments of its
own; the ones that every command has may stand on both sides of its name. -/
namespace TripleSlash.CommandLine

/-- What becomes of the comments that are found. -/
inductive Output where
  /-- Files are written back. -/
  | write
  /-- Files that would change are told. -/
  | check
  /-- New texts are printed. -/
  | print
  /-- Edits are printed. -/
  | edits
  deriving DecidableEq, Repr

inductive Command where
  /-- Comments the files that some inputs stand for, or else what stands in the standard input. -/
  | generate (mode : Mode) (output : Output) (inputs : List Text)
  /-- Does what the settings say about a file that has been saved. -/
  | onSave (file : Text)
  /-- Writes a settings file; `force` puts it in place of one that is there. -/
  | init (force : Bool)
  deriving DecidableEq, Repr

structure Invocation where
  /-- The path of the settings file. -/
  config : Option Text
  verbose : Bool
  command : Command
  deriving DecidableEq, Repr

/-- Why there is no command to run. -/
inductive Stop where
  | usage
  | help
  | version
  deriving DecidableEq, Repr

/-- Something that arguments switch on. -/
inductive Switch where
  | verbose
  | check
  | stdout
  | edits
  | force
  deriving DecidableEq, Repr

def Switch.name : Switch → Text
  | verbose => "verbose"
  | check => "check"
  | stdout => "stdout"
  | edits => "edits"
  | force => "force"

/-- The name of a command. -/
inductive Name where
  | all
  | missing
  | onSave
  | init
  deriving DecidableEq, Repr

def Name.text : Name → Text
  | all => "all"
  | missing => "missing"
  | onSave => "on-save"
  | init => "init"

def Name.parse? (t : Text) : Option Name := [all, missing, onSave, init].find? (·.text = t)

/-- What can be switched on behind the name of a command, or in front of it. -/
def switches : Option Name → List Switch
  | none | some .onSave => [.verbose]
  | some .all | some .missing => [.verbose, .check, .stdout, .edits]
  | some .init => [.verbose, .force]

/-- The form of an argument. -/
inductive Form where
  /-- Behind two hyphens by themselves nothing has a form. -/
  | escape
  | long (name : Text) (value : Option Text)
  | short (letters : Text)
  | plain
  deriving DecidableEq, Repr

def Form.of : Text → Form
  | ['-', '-'] => escape
  | '-' :: '-' :: t =>
    match t.dropWhile (· != '=') with
    | _ :: value => long (t.takeWhile (· != '=')) (some value)
    | [] => long t none
  | '-' :: c :: t => short (c :: t)
  | _ => plain

/-- What the next argument is. -/
inductive Next where
  | free
  | configPath
  /-- Not a switch, whatever its form. -/
  | plain
  deriving DecidableEq, Repr

/-- What has been read on one side of the name of a command. -/
structure Given where
  config : Option Text
  switches : List Switch
  plain : List Text
  deriving DecidableEq, Repr

structure Reading where
  name : Option Name
  /-- What stands in front of the name, once there is one. -/
  outer : Given
  given : Given
  next : Next
  deriving DecidableEq, Repr

def Given.nothing : Given := ⟨none, [], []⟩

namespace Reading

def start : Reading := ⟨none, .nothing, .nothing, .free⟩

/-- Takes the path of the settings file, once on each side of the name. -/
def takeConfig (r : Reading) (path : Text) : Except Stop Reading :=
  if path.isEmpty ∨ r.given.config.isSome then .error .usage
  else .ok { r with given := { r.given with config := some path }, next := .free }

/-- Switches something on, once on each side of the name. -/
def takeSwitch (r : Reading) (s : Switch) : Except Stop Reading :=
  if s ∉ switches r.name ∨ s ∈ r.given.switches then .error .usage
  else .ok { r with given := { r.given with switches := s :: r.given.switches } }

def takeLong (r : Reading) (name : Text) (value : Option Text) : Except Stop Reading :=
  if name = "config".toList then
    match value with
    | some path => r.takeConfig path
    | none => .ok { r with next := .configPath }
  else if value.isSome then .error .usage
  else if name = "help".toList then .error .help
  else if name = "version".toList ∧ r.name = none then .error .version
  else
    match (switches r.name).find? (·.name = name) with
    | some s => r.takeSwitch s
    | none => .error .usage

/-- Takes letters behind one hyphen. A path may follow its letter without a blank. -/
def takeShort (r : Reading) : Text → Except Stop Reading
  | [] => .ok r
  | ['c'] => .ok { r with next := .configPath }
  | 'c' :: '=' :: path => r.takeConfig path
  | 'c' :: path => r.takeConfig path
  | 'h' :: _ => .error .help
  | 'V' :: _ => .error (if r.name = none then .version else .usage)
  | 'v' :: letters => do (← r.takeSwitch .verbose).takeShort letters
  | _ => .error .usage

/-- Takes an argument that is no switch: the name of a command, or what that command is about. -/
def takePlain (r : Reading) (t : Text) : Except Stop Reading :=
  match r.name with
  | none =>
    if r.next = .plain then .error .usage
    else if t = "help".toList then .error .help
    else match Name.parse? t with
      | some name => .ok ⟨some name, r.given, .nothing, .free⟩
      | none => .error .usage
  | some name =>
    let taken := { r with given := { r.given with plain := r.given.plain ++ [t] } }
    match name with
    | .all | .missing => .ok taken
    | .onSave => if t.isEmpty ∨ r.given.plain ≠ [] then .error .usage else .ok taken
    | .init => .error .usage

/-- Takes one argument. -/
def take (r : Reading) (t : Text) : Except Stop Reading :=
  match r.next, Form.of t with
  | .plain, _ | .free, .plain => r.takePlain t
  | .configPath, .plain => r.takeConfig t
  | .configPath, _ => .error .usage
  | .free, .escape => .ok { r with next := .plain }
  | .free, .long name value => r.takeLong name value
  | .free, .short letters => r.takeShort letters

/-- At most one of the switches about output may be on. -/
def output? (switches : List Switch) : Option Output :=
  match switches.filter (· ∈ [.check, .stdout, .edits]) with
  | [] => some .write
  | [.check] => some .check
  | [.stdout] => some .print
  | [.edits] => some .edits
  | _ => none

def command? (r : Reading) : Option Command :=
  match r.name, r.given.plain with
  | some .all, inputs => (output? r.given.switches).map (.generate .regenerate · inputs)
  | some .missing, inputs => (output? r.given.switches).map (.generate .fillMissing · inputs)
  | some .onSave, [file] => some (.onSave file)
  | some .init, [] => some (.init (.force ∈ r.given.switches))
  | _, _ => none

/-- What all arguments say together. The path behind the name goes before the one in front. -/
def finish (r : Reading) : Except Stop Invocation :=
  match r.next, r.command? with
  | .configPath, _ | _, none => .error .usage
  | _, some command => .ok
    ⟨r.given.config <|> r.outer.config, .verbose ∈ r.outer.switches ++ r.given.switches, command⟩

end Reading

/-- Reads the arguments of the command line. -/
def Invocation.parse (args : List Text) : Except Stop Invocation := do
  (← args.foldlM Reading.take Reading.start).finish

end TripleSlash.CommandLine
