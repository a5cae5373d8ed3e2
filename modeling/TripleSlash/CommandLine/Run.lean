import TripleSlash.CommandLine.Arguments
import TripleSlash.CommandLine.Note
import TripleSlash.CommandLine.Plan
import TripleSlash.Document.Pass
import TripleSlash.Files.Search

/-! What a command does to a disk. -/
namespace TripleSlash.CommandLine

/-- What a run leaves behind. -/
structure Outcome where
  disk : Disk
  printed : Text
  notes : List Note
  success : Bool

namespace Outcome

/-- Ends a run that failed after some notes. -/
def failure (d : Disk) (notes : List Note) (f : Failure) : Outcome :=
  ⟨d, [], notes ++ [.failed f], false⟩

/-- The lines that a user is told. -/
def lines (verbose : Bool) (o : Outcome) : List Text :=
  (o.notes.filter (·.level.isShown verbose)).map Note.line

end Outcome

/-! Settings -/

/-- The settings file where no other is asked for. -/
def defaultConfig : Text := ".autocomment.toml"

def readSettings (d : Disk) (p : Text) : Except Failure Settings :=
  match d.read p with
  | .error e => .error (.settingsUnreadable p e)
  | .ok t =>
    match Settings.read? t with
    | some s => .ok s
    | none => .error (.settingsMalformed p)

/-- A file that is asked for must be there, the default one need not. -/
def loadSettings (d : Disk) : Option Text → Except Failure Settings
  | some p => readSettings d p
  | none => if d.isFile defaultConfig then readSettings d defaultConfig else .ok .default

def settingsNotes (s : Settings) : List Note := s.doubtful.map .doubtfulTemplate

/-! Inputs -/

/-- The source files that an input stands for. -/
def expandInput (d : Disk) (input : Text) : Except Failure (List Text × List Note) :=
  match Search.Input.of d input with
  | .file => .ok ([input], [])
  | .otherFile => .ok ([], [.notSource input])
  | .pattern t =>
    match Search.paths? d t with
    | none => .error (.patternMalformed input)
    | some ps =>
      let found := Search.sources d ps
      .ok (found, if found.isEmpty then [.noMatch input] else [])

/-- The source files that inputs stand for, in the order of the inputs, and whether all inputs
could be expanded. -/
def expandFrom (d : Disk) : List Text → List Text × List Note × Option Failure
  | [] => ([], [], none)
  | input :: inputs =>
    match expandInput d input with
    | .error f => ([], [], some f)
    | .ok (found, notes) =>
      let (laterFound, laterNotes, f) := expandFrom d inputs
      (found ++ laterFound, notes ++ laterNotes, f)

/-- The source files that inputs stand for, each once and in order. -/
def expand (d : Disk) (inputs : List Text) : Except Failure (List Text) :=
  match expandFrom d inputs with
  | (found, _, none) => .ok (Search.sorted found)
  | (_, _, some f) => .error f

/-! Files -/

/-- What is done with each file. -/
structure Job where
  settings : Settings
  mode : Mode
  output : Output

/-- What has been done with some files. -/
structure Work where
  disk : Disk
  printed : Text
  plans : List Plan
  /-- The files that would change. -/
  changes : List Text
  notes : List Note
  failed : Option Failure

namespace Work

def nothing (d : Disk) : Work := ⟨d, [], [], [], [], none⟩

/-- Puts what has been done first in front of what is done next. -/
def followedBy (first next : Work) : Work where
  disk := next.disk
  printed := first.printed ++ next.printed
  plans := first.plans ++ next.plans
  changes := first.changes ++ next.changes
  notes := first.notes ++ next.notes
  failed := next.failed

end Work

namespace Job

/-- Does the job with the text of a file. A file that does not change is not written. That a file
cannot be written is a failure, which does not come up where its text was read from the same
disk. -/
def process (j : Job) (d : Disk) (p source : Text) : Work :=
  let pass := j.settings.pass j.mode source
  let w := { Work.nothing d with notes := pass.notices.map .scan }
  match pass.text with
  | .error e => { w with failed := some (.fileNotEdited p e) }
  | .ok text =>
    match j.output with
    | .print => { w with printed := text }
    | .edits => { w with plans := [⟨p, pass.edits⟩] }
    | .check => if text = source then w else { w with changes := [p] }
    | .write =>
      if text = source then w
      else match d.write? p text with
        | some d => { w with disk := d, notes := w.notes ++ [.updated p] }
        | none => { w with failed := some (.fileNotWritten p) }

/-- Does the job with a file, if it can be read. -/
def visit (j : Job) (d : Disk) (p : Text) : Work :=
  match d.read p with
  | .error e => { Work.nothing d with notes := [.skipped p e] }
  | .ok source => j.process d p source

/-- Does the job with files, each on the disk that the ones before it left behind. -/
def visitAll (j : Job) (d : Disk) : List Text → Work
  | [] => .nothing d
  | p :: ps =>
    let w := j.visit d p
    if w.failed.isSome then w else w.followedBy (j.visitAll w.disk ps)

/-- Tells what has been done with all files. -/
def report (j : Job) (notes : List Note) (w : Work) : Outcome :=
  match w.failed with
  | some f => ⟨w.disk, w.printed, notes ++ w.notes ++ [.failed f], false⟩
  | none =>
    let plans := if j.output = .edits then Plan.writeAll w.plans ++ ['\n'] else []
    ⟨w.disk, w.printed ++ plans, notes ++ w.notes ++ w.changes.map .wouldChange,
      w.changes.isEmpty⟩

/-- Does the job with the files that inputs stand for. -/
def runFiles (j : Job) (d : Disk) (inputs : List Text) : Outcome :=
  let notes := settingsNotes j.settings ++ (expandFrom d inputs).2.1
  match expand d inputs with
  | .error f => .failure d notes f
  | .ok files => j.report notes (j.visitAll d files)

/-- Does the job with the standard input, which is never written back but printed. -/
def runInput (j : Job) (d : Disk) (input : Content) : Outcome :=
  let notes := settingsNotes j.settings
  match input with
  | .bytes _ => .failure d notes .inputUnreadable
  | .text source =>
    let pass := j.settings.pass j.mode source
    let notes := notes ++ pass.notices.map .scan
    match pass.text with
    | .error e => .failure d notes (.inputNotEdited e)
    | .ok text =>
      match j.output with
      | .write | .print => ⟨d, text, notes, true⟩
      | .edits => ⟨d, Plan.writeEdits 0 pass.edits ++ ['\n'], notes, true⟩
      | .check =>
        if text = source then ⟨d, [], notes, true⟩
        else ⟨d, [], notes ++ [.wouldChange "<stdin>"], false⟩

end Job

/-! Commands -/

def generate (d : Disk) (input : Content) (config : Option Text) (mode : Mode) (output : Output)
    (inputs : List Text) : Outcome :=
  match loadSettings d config with
  | .error f => .failure d [] f
  | .ok s =>
    let j : Job := ⟨s, mode, output⟩
    if inputs.isEmpty then j.runInput d input else j.runFiles d inputs

/-- The save hook of a file never fails, so that a broken run does not keep a file from being
saved. -/
def onSave (d : Disk) (config : Option Text) (p : Text) : Outcome :=
  match loadSettings d config with
  | .error f => ⟨d, [], [.saveWithoutSettings f], true⟩
  | .ok s =>
    let notes := settingsNotes s
    if !s.runOnSave then ⟨d, [], notes ++ [.saveDisabled p], true⟩
    else if !Path.isSource p then ⟨d, [], notes ++ [.savedNoSource p], true⟩
    else match d.read p with
      | .error e => ⟨d, [], notes ++ [.saveFailed (.fileUnreadable p e)], true⟩
      | .ok source =>
        let w := Job.process ⟨s, s.saveMode, .write⟩ d p source
        ⟨w.disk, [], notes ++ w.notes ++ w.failed.toList.map .saveFailed, true⟩

/-- Writes the default settings. -/
def init (d : Disk) (config : Option Text) (force : Bool) : Outcome :=
  let p := config.getD defaultConfig
  if d.exists? p ∧ !force then .failure d [] (.settingsPresent p)
  else match d.write? p Settings.default.write with
    | some d => ⟨d, [], [.wrote p], true⟩
    | none => .failure d [] (.settingsNotWritten p)

/-- Runs a command on a disk, with a standard input. -/
def Invocation.run (i : Invocation) (d : Disk) (input : Content) : Outcome :=
  match i.command with
  | .generate mode output inputs => generate d input i.config mode output inputs
  | .onSave file => onSave d i.config file
  | .init force => init d i.config force

end TripleSlash.CommandLine
