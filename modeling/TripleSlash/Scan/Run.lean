import TripleSlash.Scan.Step

/-! A pass over the lines of a file. It can be cancelled between two lines, and then it has no
edits at all. -/
namespace TripleSlash.Scan

/-- The pass was cancelled before a line, counted from zero. -/
structure Cancelled where
  line : Nat
  deriving DecidableEq, Repr

def Cancelled.message (c : Cancelled) : String := s!"scan cancelled before line {c.line}"

/-- What a pass leaves behind. -/
structure Report where
  result : Except Cancelled (List Edit)
  /-- After each line, how many lines are done and how many there are. -/
  progress : List (Nat × Nat)
  notices : List Notice

/-- Puts the result of a line in front of what the later lines leave behind. -/
def Report.cons (total index : Nat) (s : Step) (r : Report) : Report where
  result := r.result.map (s.edits ++ ·)
  progress := (index + 1, total) :: r.progress
  notices := s.notices ++ r.notices

/-- Tells of a comment that was never finished. -/
def State.leftovers (s : State) : List Notice :=
  match s.openList with
  | some (.commented p) => [.neverClosed p.declaredAt]
  | _ => []

/-- Goes on from a state at a line. `stop n` tells whether the pass is cancelled when `n` lines
are done. -/
def runFrom (o : Options) (stop : Nat → Bool) (total : Nat) : State → Nat → List Text → Report
  | s, _, [] => ⟨.ok [], [], s.leftovers⟩
  | s, index, line :: lines =>
    if stop index then ⟨.error ⟨index⟩, [], []⟩
    else
      let here := step o s index line
      (runFrom o stop total here.state (index + 1) lines).cons total index here

/-- A whole pass. -/
def run (o : Options) (stop : Nat → Bool) (lines : List Text) : Report :=
  let r := runFrom o stop lines.length State.neutral 0 lines
  match r.result with
  | .ok edits =>
    { r with notices := r.notices ++ [.complete o.mode lines.length edits.length] }
  | .error _ => r

/-- The edits of a pass, none if it was cancelled. -/
def Report.edits (r : Report) : List Edit :=
  match r.result with
  | .ok es => es
  | .error _ => []

/-- The edits of a pass that nobody cancels. -/
def edits (o : Options) (lines : List Text) : List Edit := (run o (fun _ => false) lines).edits

end TripleSlash.Scan
