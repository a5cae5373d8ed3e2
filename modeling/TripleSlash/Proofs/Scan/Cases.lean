import TripleSlash.Scan.Run

/-! Every way in which a pass takes a line. Later facts go by these cases and leave `step`
closed. -/
namespace TripleSlash.Scan

variable {o : Options} {s : State} {i : Nat} {line : Text}

/-- The cases of a step. -/
inductive StepCase (o : Options) (s : State) (i : Nat) (line : Text) : Step → Prop where
  | comment (hc : isComment line = true) : StepCase o s i line (onComment o s i)
  | finished {p : Comment.Pending} {text : Text} (hc : isComment line = false)
      (hl : s.openList = some (.commented p)) (hf : p.finish? o.templates line = some text) :
      StepCase o s i line ⟨{ s with openList := none }, [.insert p.insertAt text], []⟩
  | pending {p : Comment.Pending} (hc : isComment line = false)
      (hl : s.openList = some (.commented p)) (hf : p.finish? o.templates line = none) :
      StepCase o s i line
        ⟨{ s with openList := some (.commented (p.accept o.templates line)) }, [], []⟩
  | closed {depth : Nat} {before rest : Text} (hc : isComment line = false)
      (hl : s.openList = some (.bare depth)) (hp : Parens.scan depth line = .closed before rest) :
      StepCase o s i line ⟨{ s with openList := none }, [], []⟩
  | unclosed {depth deeper : Nat} (hc : isComment line = false)
      (hl : s.openList = some (.bare depth)) (hp : Parens.scan depth line = .unclosed deeper) :
      StepCase o s i line ⟨{ s with openList := some (.bare deeper) }, [], []⟩
  | attribute (hc : isComment line = false) (hl : s.openList = none)
      (ha : isAttribute line = true) : StepCase o s i line (onAttribute s i)
  | other (hc : isComment line = false) (hl : s.openList = none) (ha : isAttribute line = false)
      (hd : Declaration.recognize? line = none) : StepCase o s i line ⟨.neutral, [], []⟩
  /-- A declaration whose parameters go on below. -/
  | opening {d : Declaration} {text : Text} (hc : isComment line = false)
      (hl : s.openList = none) (ha : isAttribute line = false)
      (hd : Declaration.recognize? line = some d) (ht : comment? o s d = some text)
      (ho : d.isOpen = true) :
      StepCase o s i line
        ⟨{ State.neutral with
            openList := some (.commented (Comment.Pending.start (s.attributesAt.getD i) i text
              d.rawParameters (Comment.newline o.lineBreak d.indent))) }, [], []⟩
  /-- A declaration with all its parameters. -/
  | whole {d : Declaration} {text : Text} (hc : isComment line = false)
      (hl : s.openList = none) (ha : isAttribute line = false)
      (hd : Declaration.recognize? line = some d) (ht : comment? o s d = some text)
      (ho : d.isOpen = false) :
      StepCase o s i line ⟨.neutral, [.insert (s.attributesAt.getD i) text], []⟩
  /-- A declaration that gets no comment and whose parameters go on below. -/
  | skipped {d : Declaration} (hc : isComment line = false) (hl : s.openList = none)
      (ha : isAttribute line = false) (hd : Declaration.recognize? line = some d)
      (ht : comment? o s d = none) (ho : d.isOpen = true) :
      StepCase o s i line
        ⟨{ State.neutral with
            openList := some (.bare (Parens.depthAfter Parens.opened d.rawParameters)) }, [], []⟩
  /-- A declaration that gets no comment, with all its parameters. -/
  | passed {d : Declaration} (hc : isComment line = false) (hl : s.openList = none)
      (ha : isAttribute line = false) (hd : Declaration.recognize? line = some d)
      (ht : comment? o s d = none) (ho : d.isOpen = false) :
      StepCase o s i line ⟨.neutral, [], []⟩

theorem step_case (o : Options) (s : State) (i : Nat) (line : Text) :
    StepCase o s i line (step o s i line) := by
  unfold step
  split
  next hc => exact .comment hc
  next hc =>
    have hc : isComment line = false := by simpa using hc
    split
    next list hl =>
      unfold onListLine
      split
      next p =>
        split
        next text hf => exact .finished hc hl hf
        next hf => exact .pending hc hl hf
      next depth =>
        split
        next before rest hp => exact .closed hc hl hp
        next deeper hp => exact .unclosed hc hl hp
    next hl =>
      split
      next ha => exact .attribute hc hl ha
      next ha =>
        have ha : isAttribute line = false := by simpa using ha
        split
        next d hd =>
          unfold onDeclaration
          split
          next text ht ho => exact .opening hc hl ha hd ht ho
          next text ht ho => exact .whole hc hl ha hd ht ho
          next ht ho => exact .skipped hc hl ha hd ht ho
          next ht ho => exact .passed hc hl ha hd ht ho
        next hd => exact .other hc hl ha hd

theorem render?_of_comment? {d : Declaration} {text : Text} (h : comment? o s d = some text) :
    Comment.render? o.templates o.lineBreak d = some text := by
  unfold comment? at h
  split at h
  · simp at h
  · split at h
    · exact h
    · simp at h

/-- Where the same declarations get comments, these differ as the texts for the declarations do. -/
theorem comment?_map {o' : Options} {s' : State} {d d' : Declaration} {f : Text → Text}
    (hm : o'.mode = o.mode) (ha : s'.afterComment = s.afterComment)
    (hc : o'.documented.contains d'.access = o.documented.contains d.access)
    (hr : Comment.render? o'.templates o'.lineBreak d' =
      (Comment.render? o.templates o.lineBreak d).map f) :
    comment? o' s' d' = (comment? o s d).map f := by
  rw [comment?, comment?, hm, ha, hc, hr]
  split
  · rfl
  · split <;> rfl

/-- The comment that a line finishes, if any. -/
def Step.inserted? (t : Step) : Option Text :=
  t.edits.findSome? fun
    | .insert _ text => some text
    | .delete _ => none

/-- The edit that takes out a comment line. -/
def deletion (o : Options) (i : Nat) (line : Text) : List Edit :=
  if o.mode = .regenerate ∧ isComment line then [.delete i] else []

/-- The line above which a comment may still go, if the pass keeps one in mind. -/
def State.anchor? (s : State) : Option Nat :=
  match s.openList with
  | some (.commented p) => some p.insertAt
  | some (.bare _) => none
  | none => s.attributesAt

/-- Whether a comment may still go above a line that is already read. -/
def State.waits (s : State) : Bool := s.anchor?.isSome

/-- Attributes are forgotten as soon as a list is open. -/
def State.Tidy (s : State) : Prop := s.openList.isSome → s.attributesAt = none

theorem tidy_neutral : State.neutral.Tidy := by
  intro h
  rfl

theorem tidy_step (h : s.Tidy) : (step o s i line).state.Tidy := by
  generalize hr : step o s i line = r
  cases hr ▸ step_case o s i line <;> simp_all [State.Tidy, onComment, onAttribute, State.neutral]

theorem step_edits : (step o s i line).edits =
    deletion o i line ++ (step o s i line).inserted?.toList.map (.insert (s.anchor?.getD i)) := by
  generalize hr : step o s i line = r
  cases hr ▸ step_case o s i line with
  | comment hc =>
    by_cases hm : o.mode = .regenerate <;> simp [deletion, onComment, Step.inserted?, hc, hm]
  | _ => simp_all [deletion, Step.inserted?, onAttribute, State.anchor?]

/-- The place that a pass keeps in mind stays the same until it is given up. -/
theorem anchor?_step (h : s.Tidy) {a : Nat} (ha : (step o s i line).state.anchor? = some a) :
    a = s.anchor?.getD i := by
  generalize hr : step o s i line = r at ha
  cases hr ▸ step_case o s i line <;>
    simp_all [State.anchor?, State.Tidy, onComment, onAttribute, State.neutral,
      Comment.Pending.accept, Comment.Pending.start]

theorem inserted?_of_comment (hc : isComment line = true) : (step o s i line).inserted? = none := by
  by_cases hm : o.mode = .regenerate <;> simp [step, hc, onComment, Step.inserted?, hm]

theorem waits_of_comment (hc : isComment line = true) :
    (step o s i line).state.waits = false := by
  simp [step, hc, onComment, State.waits, State.anchor?, State.neutral]

/-- With its comment a pass gives up the place for it. -/
theorem waits_of_inserted (h : s.Tidy) {text : Text}
    (ht : (step o s i line).inserted? = some text) : (step o s i line).state.waits = false := by
  generalize hr : step o s i line = r at ht
  cases hr ▸ step_case o s i line <;>
    simp_all [Step.inserted?, State.waits, State.anchor?, State.Tidy, onComment, onAttribute,
      State.neutral]

end TripleSlash.Scan
