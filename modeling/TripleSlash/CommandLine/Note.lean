import TripleSlash.Document.Revision
import TripleSlash.Files.Disk
import TripleSlash.Scan.Step
import TripleSlash.Settings.File

/-! What a user is told beside what is printed. -/
namespace TripleSlash.CommandLine

/-- Why a run fails. -/
inductive Failure where
  | settingsUnreadable (path : Text) (e : PathError)
  | settingsMalformed (path : Text)
  | settingsPresent (path : Text)
  | settingsNotWritten (path : Text)
  | inputUnreadable
  | inputNotEdited (e : ApplyError)
  | patternMalformed (pattern : Text)
  | fileUnreadable (path : Text) (e : PathError)
  | fileNotEdited (path : Text) (e : ApplyError)
  | fileNotWritten (path : Text)
  deriving DecidableEq, Repr

namespace Failure

/-- What failed. -/
def message : Failure → Text
  | settingsUnreadable p _ => "failed to read settings file: ".toList ++ p
  | settingsMalformed p => "failed to parse settings file: ".toList ++ p
  | settingsPresent p => p ++ " already exists (use --force to overwrite)".toList
  | settingsNotWritten p => "failed to write settings file: ".toList ++ p
  | inputUnreadable => "failed to read stdin"
  | inputNotEdited e => e.message
  | patternMalformed p => "invalid glob pattern: ".toList ++ p
  | fileUnreadable p _ => "failed to read ".toList ++ p
  | fileNotEdited p _ => "failed to process ".toList ++ p
  | fileNotWritten p => "failed to write ".toList ++ p

/-- What failed, and why. -/
def explanation (f : Failure) : Text :=
  match f with
  | settingsUnreadable _ e | fileUnreadable _ e => f.message ++ ": ".toList ++ e.message
  | fileNotEdited _ e => f.message ++ ": ".toList ++ e.message
  | f => f.message

end Failure

/-- Something that a user is told. -/
inductive Note where
  | doubtfulTemplate (slot : Templates.Slot)
  | notSource (path : Text)
  | noMatch (input : Text)
  | skipped (path : Text) (e : PathError)
  | saveWithoutSettings (f : Failure)
  | saveFailed (f : Failure)
  | saveDisabled (path : Text)
  | savedNoSource (path : Text)
  | scan (n : Scan.Notice)
  | updated (path : Text)
  | wouldChange (path : Text)
  | wrote (path : Text)
  | failed (f : Failure)
  deriving DecidableEq, Repr

namespace Note

/-- How urgent a note is. -/
inductive Level where
  | debug
  | info
  | warning
  /-- Told as it is. -/
  | plain
  deriving DecidableEq, Repr

def level : Note → Level
  | doubtfulTemplate _ | notSource _ | noMatch _ | skipped _ _ | saveWithoutSettings _
  | saveFailed _ => .warning
  | saveDisabled _ | savedNoSource _ | scan _ => .debug
  | updated _ => .info
  | wouldChange _ | wrote _ | failed _ => .plain

def Level.mark : Level → Text
  | debug => "DEBUG "
  | info => "INFO "
  | warning => "WARN "
  | plain => ""

/-- Only users who ask for more are told what is not urgent. -/
def Level.isShown (verbose : Bool) : Level → Bool
  | debug | info => verbose
  | warning | plain => true

def modeName : Mode → String
  | .regenerate => "Regenerate"
  | .fillMissing => "FillMissing"

def noticeText : Scan.Notice → String
  | .dropped line => s!"comment inside parameter list, continuation dropped line={line}"
  | .neverClosed line => s!"parameter list never closed, no comment inserted line={line}"
  | .complete mode lines edits =>
    s!"scan complete mode={modeName mode} lines={lines} edits={edits}"

def text : Note → Text
  | doubtfulTemplate slot => Settings.warning slot
  | notSource p => "skipping ".toList ++ p ++ ": not a C# source file".toList
  | noMatch input => "no files matched: ".toList ++ input
  | skipped p e => "skipping ".toList ++ p ++ ": ".toList ++ e.message
  | saveWithoutSettings f => "on-save skipped: ".toList ++ f.explanation
  | saveFailed f => "on-save generation failed: ".toList ++ f.explanation
  | saveDisabled p => "run_on_save disabled, ignoring ".toList ++ p
  | savedNoSource p => "not a C# file, ignoring ".toList ++ p
  | scan n => noticeText n
  | updated p => "updated ".toList ++ p
  | wouldChange p => "would change: ".toList ++ p
  | wrote p => "wrote ".toList ++ p
  | failed f => "Error: ".toList ++ f.message

/-- Whether a terminal may take a character for a command. -/
def isCommand (c : Char) : Bool :=
  ['\x07', '\x08', '\x0c', '\x1b', '\x7f'].contains c || (0x80 ≤ c.toNat && c.toNat ≤ 0x9F)

/-- A character as a line shows it: commands of a terminal are written out. -/
def display (c : Char) : Text :=
  let digits := Nat.toDigits 16 c.toNat
  if !isCommand c then [c]
  else if c.toNat < 0x10 then '\\' :: 'x' :: '0' :: digits
  else if c.toNat < 0x80 then '\\' :: 'x' :: digits
  else '\\' :: 'u' :: '\x7b' :: digits ++ ['\x7d']

/-- The line for a note. -/
def line (n : Note) : Text :=
  if n.level = .plain then n.text else n.level.mark ++ n.text.flatMap display

end Note
end TripleSlash.CommandLine
