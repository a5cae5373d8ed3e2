import TripleSlash.CommandLine.Run

/-! What a user sees of a run, whatever the arguments are. -/
namespace TripleSlash.CommandLine

/-- What the program answers to its arguments. -/
structure Reply where
  /-- Zero for success, one for failure, two for arguments that name no command. -/
  status : Nat
  printed : Text
  told : List Text
  disk : Disk

def usage : Text := "Usage: autocomment [-c FILE] [-v] COMMAND"

def help : Text := "Generate XML documentation comments for C# declarations

Usage: autocomment [-c FILE] [-v] COMMAND

Commands:
  all [--check | --stdout | --edits] [INPUT]...
      Remove every `///` comment and regenerate comments for all declarations
  missing [--check | --stdout | --edits] [INPUT]...
      Generate comments only for declarations that lack one
  on-save FILE
      Run the configured command when `run_on_save` is enabled
  init [--force]
      Write a settings file with the default templates

Inputs are files, directories or glob patterns; without any, the standard input is read.

Options:
  -c, --config FILE  Settings file (.autocomment.toml when present)
  -v, --verbose      Enable debug logging
  -h, --help         Print help
  -V, --version      Print version
"

def version : Text := "autocomment 0.1.0\n"

/-- Whether a command reads the standard input. -/
def Command.readsInput : Command → Bool
  | .generate _ _ inputs => inputs.isEmpty
  | .onSave _ | .init _ => false

/-- Answers arguments on a disk, with a standard input. -/
def reply (args : List Text) (d : Disk) (input : Content) : Reply :=
  match Invocation.parse args with
  | .error .usage => ⟨2, [], [usage], d⟩
  | .error .help => ⟨0, help, [], d⟩
  | .error .version => ⟨0, version, [], d⟩
  | .ok i =>
    let o := i.run d input
    ⟨if o.success then 0 else 1, o.printed, o.lines i.verbose, o.disk⟩

end TripleSlash.CommandLine
