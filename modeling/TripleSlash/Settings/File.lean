import TripleSlash.Settings.Basic
import TripleSlash.Toml.Reader

/-! Settings files. Every key may be missing, and no other key may be there. -/
namespace TripleSlash

open Toml (Value Entries)

def Access.key : Access → Text
  | pub => "public"
  | internal => "internal"
  | prot => "protected"
  | protInternal => "protected_internal"
  | priv => "private"
  | privProt => "private_protected"

def Templates.Slot.key : Templates.Slot → Text
  | type => "class"
  | constructor => "constructor"
  | method => "method"
  | parameter => "parameter"
  | returns => "returns"
  | get => "get"
  | getSet => "get_set"
  | getInit => "get_init"
  | set => "set"
  | init => "init"

def Mode.key : Mode → Text
  | regenerate => "all"
  | fillMissing => "missing"

def LineEnding.key : LineEnding → Text
  | auto => "auto"
  | lf => "lf"
  | crlf => "crlf"

namespace Settings

/-! Reading -/

def boolean? : Value → Option Bool
  | .boolean b => some b
  | _ => none

def string? : Value → Option Text
  | .string t => some t
  | _ => none

/-- A choice is a string, or a table that holds nothing but the chosen name. -/
def choice? : Value → Option Text
  | .string t => some t
  | .table _ [(key, .table _ [])] => some key
  | .table _ [(key, .array [])] => some key
  | _ => none

/-- The values of a table under the names of its keys. In an array the values come in the order
of the names, and those behind the last name do not count. -/
def members? {α : Type} (names : List α) (key : α → Text) : Value → Option (List (α × Value))
  | .table _ es => es.mapM fun (k, v) => (names.find? (key · = k)).map (·, v)
  | .array vs => some (names.zip vs)
  | _ => none

def access? (v : Value) : Option AccessSet := do
  (← members? Access.all Access.key v).foldlM (fun s (a, v) => (boolean? v).map (s.put a)) .visible

def templates? (v : Value) : Option Templates := do
  (← members? Templates.Slot.all Templates.Slot.key v).foldlM
    (fun ts (slot, v) => (string? v).map (ts.put slot)) .stock

def mode? (v : Value) : Option Mode := do
  let t ← choice? v
  [Mode.regenerate, .fillMissing].find? (·.key = t)

def lineEnding? (v : Value) : Option LineEnding := do
  let t ← choice? v
  [LineEnding.auto, .lf, .crlf].find? (·.key = t)

/-- Makes the setting of one key. -/
def set? (s : Settings) (key : Text) (v : Value) : Option Settings :=
  if key = "run_on_save".toList then (boolean? v).map ({ s with runOnSave := · })
  else if key = "run_on_save_command".toList then (mode? v).map ({ s with saveMode := · })
  else if key = "line_ending".toList then (lineEnding? v).map ({ s with lineEnding := · })
  else if key = "access".toList then (access? v).map ({ s with access := · })
  else if key = "templates".toList then (templates? v).map ({ s with templates := · })
  else none

def ofEntries? (es : Entries) : Option Settings :=
  es.foldlM (fun s (key, v) => s.set? key v) default

/-- Reads the text of a settings file. -/
def read? (t : Text) : Option Settings := (Toml.read? t).bind ofEntries?

/-! Writing -/

/-- A line that makes one setting. -/
def writeLine (key value : Text) : Text := key ++ " = ".toList ++ value ++ ['\n']

def writeBool (b : Bool) : Text := if b then "true" else "false"

def writeHeader (name : Text) : Text := '\n' :: '[' :: name ++ "]\n".toList

/-- The text of a settings file with every key. -/
def write (s : Settings) : Text :=
  writeLine "run_on_save" (writeBool s.runOnSave) ++
  writeLine "run_on_save_command" (Toml.Quoted.write s.saveMode.key) ++
  writeLine "line_ending" (Toml.Quoted.write s.lineEnding.key) ++
  writeHeader "access" ++
  Access.all.flatMap (fun a => writeLine a.key (writeBool (s.access.contains a))) ++
  writeHeader "templates" ++
  Templates.Slot.all.flatMap fun slot =>
    writeLine slot.key (Toml.Quoted.write (s.templates.template slot))

/-- What a user is told about a template whose comments would not be found again. -/
def warning (slot : Templates.Slot) : Text :=
  "template `".toList ++ slot.key ++
    "` emits lines not starting with `///`; they will not be detected as existing comments".toList

def warnings (s : Settings) : List Text := s.doubtful.map warning

end Settings
end TripleSlash
