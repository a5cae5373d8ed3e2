import TripleSlash.Document.Line
import TripleSlash.Scan.Edit

/-! Edits applied to a document, all of them or none. -/
namespace TripleSlash

/-- Why edits cannot be applied. Lines are counted from zero. -/
inductive ApplyError where
  | outOfRange (line lines : Nat)
  /-- An edit follows the deletion of its line. -/
  | overlapping (line : Nat)
  deriving DecidableEq, Repr

/-- People count lines from one. -/
def ApplyError.message : ApplyError → String
  | outOfRange line lines =>
    s!"edit references line {line + 1} but the document has {lines} lines"
  | overlapping line => s!"overlapping edits at line {line + 1}"

namespace Line

/-- Writes the lines from `start` on, with edits that come in the order of their lines. -/
def applyFrom (doc : List Line) : Nat → List Edit → Except ApplyError Text
  | start, [] => .ok (join (doc.drop start))
  | start, e :: es =>
    if doc.length ≤ e.line then .error (.outOfRange e.line doc.length)
    else if e.line < start then .error (.overlapping e.line)
    else do
      let kept := join ((doc.take e.line).drop start)
      match e with
      | .insert n text => return kept ++ text ++ (← applyFrom doc n es)
      | .delete n => return kept ++ (← applyFrom doc (n + 1) es)

/-- Applies edits in any order; edits of one line keep theirs. -/
def apply (doc : List Line) (es : List Edit) : Except ApplyError Text :=
  applyFrom doc 0 (es.mergeSort (·.line ≤ ·.line))

end Line
end TripleSlash
