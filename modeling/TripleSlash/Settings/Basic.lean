import TripleSlash.Document.Line
import TripleSlash.Scan.Step

/-! Settings: what a user may choose about comments and about the save hook. -/
namespace TripleSlash

/-- Which line break ends the lines of a comment. -/
inductive LineEnding where
  /-- The first one of the document. -/
  | auto
  | lf
  | crlf
  deriving DecidableEq, Repr

structure Settings where
  /-- Whether the save hook does anything. -/
  runOnSave : Bool
  /-- What the save hook does. -/
  saveMode : Mode
  lineEnding : LineEnding
  /-- The modifiers of the declarations that get comments. -/
  access : AccessSet
  templates : Templates
  deriving DecidableEq, Repr

namespace Settings

/-- The settings where none are made. -/
def default : Settings := ⟨false, .fillMissing, .auto, .visible, .stock⟩

/-- The line break of comments in a document whose own is `own`. -/
def lineBreak (s : Settings) (own : LineBreak) : LineBreak :=
  match s.lineEnding with
  | .auto => own
  | .lf => .lf
  | .crlf => .crlf

/-- What a pass is asked for under these settings. -/
def options (s : Settings) (mode : Mode) (own : LineBreak) : Scan.Options :=
  ⟨s.templates, s.access, mode, (s.lineBreak own).text⟩

/-- Whether every line of a template begins like a comment. -/
def keepsComments (t : Text) : Bool :=
  (Text.splitOn (Template.hole "nl") t).all fun line =>
    "///".toList.isPrefixOf (line.dropWhile isBlank)

/-- The templates whose comments would not be found again. -/
def doubtful (s : Settings) : List Templates.Slot :=
  Templates.Slot.all.filter fun slot => !keepsComments (s.templates.template slot)

end Settings
end TripleSlash
