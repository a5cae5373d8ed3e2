import TripleSlash.Comment.Pending
import TripleSlash.Declaration.Recognition
import TripleSlash.Scan.Edit

/-! What a pass over a file does at one line. -/
namespace TripleSlash

/-- Which comments a pass writes. -/
inductive Mode where
  /-- Takes out every comment and writes new ones. -/
  | regenerate
  /-- Writes comments where there are none. -/
  | fillMissing
  deriving DecidableEq, Repr

namespace Scan

/-- What a pass is asked for. -/
structure Options where
  templates : Templates
  /-- The modifiers of the declarations that get comments. -/
  documented : AccessSet
  mode : Mode
  lineBreak : Text
  deriving DecidableEq, Repr

/-- A parameter list that has not been closed yet. -/
inductive OpenList where
  /-- Its declaration gets a comment. -/
  | commented (pending : Comment.Pending)
  /-- Its declaration gets none. -/
  | bare (depth : Nat)
  deriving DecidableEq, Repr

/-- What a pass knows between two lines. -/
structure State where
  /-- Whether a comment stands above, with at most attributes in between. -/
  afterComment : Bool
  /-- The first of the attribute lines directly above. -/
  attributesAt : Option Nat
  openList : Option OpenList
  deriving DecidableEq, Repr

/-- Nothing above matters. -/
def State.neutral : State := ⟨false, none, none⟩

/-- What a pass reports beside its edits. -/
inductive Notice where
  /-- A comment stood inside the parameter list of the declaration at a line. -/
  | dropped (declaredAt : Nat)
  /-- The parameter list of the declaration at a line was still open at the end. -/
  | neverClosed (declaredAt : Nat)
  | complete (mode : Mode) (lines edits : Nat)
  deriving DecidableEq, Repr

/-- The result of one line. -/
structure Step where
  state : State
  edits : List Edit
  notices : List Notice
  deriving DecidableEq, Repr

variable (o : Options) (s : State) (index : Nat) (line : Text)

/-- A comment line ends every open list and all that stood above it. -/
def onComment : Step where
  state := { State.neutral with afterComment := true }
  edits := if o.mode = .regenerate then [.delete index] else []
  notices :=
    match s.openList with
    | some (.commented p) => [.dropped p.declaredAt]
    | _ => []

/-- Inside an open list each line belongs to the list. -/
def onListLine : OpenList → Step
  | .commented p =>
    match p.finish? o.templates line with
    | some text => ⟨{ s with openList := none }, [.insert p.insertAt text], []⟩
    | none => ⟨{ s with openList := some (.commented (p.accept o.templates line)) }, [], []⟩
  | .bare depth =>
    match Parens.scan depth line with
    | .closed _ _ => ⟨{ s with openList := none }, [], []⟩
    | .unclosed depth => ⟨{ s with openList := some (.bare depth) }, [], []⟩

/-- The first of a run of attribute lines is kept. -/
def onAttribute : Step :=
  ⟨{ s with attributesAt := some (s.attributesAt.getD index) }, [], []⟩

/-- The comment that a declaration below `s` gets, if any. -/
def comment? (d : Declaration) : Option Text :=
  if o.mode = .fillMissing ∧ s.afterComment then none
  else if o.documented.contains d.access then Comment.render? o.templates o.lineBreak d
  else none

/-- A comment goes above the attributes of its declaration, once the parameters are complete. -/
def onDeclaration (d : Declaration) : Step :=
  let insertAt := s.attributesAt.getD index
  match comment? o s d, d.isOpen with
  | some text, true =>
    let pending := Comment.Pending.start insertAt index text d.rawParameters
      (Comment.newline o.lineBreak d.indent)
    ⟨{ State.neutral with openList := some (.commented pending) }, [], []⟩
  | some text, false => ⟨State.neutral, [.insert insertAt text], []⟩
  | none, true =>
    let depth := Parens.depthAfter Parens.opened d.rawParameters
    ⟨{ State.neutral with openList := some (.bare depth) }, [], []⟩
  | none, false => ⟨State.neutral, [], []⟩

/-- Comments come first, then the rest of an open list, then attributes and declarations. -/
def step : Step :=
  if isComment line then onComment o s index
  else match s.openList with
    | some list => onListLine o s line list
    | none =>
      if isAttribute line then onAttribute s index
      else match Declaration.recognize? line with
        | some d => onDeclaration o s index d
        | none => ⟨State.neutral, [], []⟩

end Scan
end TripleSlash
