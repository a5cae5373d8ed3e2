import TripleSlash.Document.Revision
import TripleSlash.Scan.Run
import TripleSlash.Settings.Basic

/-! A pass over a document: its lines are scanned, and the edits are applied to it. -/
namespace TripleSlash

/-- What a pass makes of a document. -/
structure Pass where
  edits : List Edit
  text : Except ApplyError Text
  notices : List Scan.Notice

/-- Runs a pass over the text of a document. -/
def Settings.pass (s : Settings) (mode : Mode) (source : Text) : Pass :=
  let lines := Line.ofText source
  let o := s.options mode (Line.firstBreak lines)
  let report := Scan.run o (fun _ => false) (lines.map Line.text)
  ⟨report.edits, Line.apply lines report.edits, report.notices⟩

end TripleSlash
