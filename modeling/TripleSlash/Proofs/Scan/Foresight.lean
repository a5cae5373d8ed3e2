import TripleSlash.Proofs.Scan.Cases

/-! The edits of a pass in the order of their lines. A pass finds a comment only after the line
above which it belongs; looking ahead over the lines gives it at once. -/
namespace TripleSlash.Scan

variable {o : Options} {s : State} {i : Nat} {line : Text} {lines : List Text}

/-- The state behind some lines. -/
def after (o : Options) : State → Nat → List Text → State
  | s, _, [] => s
  | s, i, line :: lines => after o (step o s i line).state (i + 1) lines

/-- The edits of some lines, as a pass finds them. -/
def editsFrom (o : Options) : State → Nat → List Text → List Edit
  | _, _, [] => []
  | s, i, line :: lines =>
    let here := step o s i line
    here.edits ++ editsFrom o here.state (i + 1) lines

/-- The states in which a pass meets comments. -/
def atComments (o : Options) : State → Nat → List Text → List State
  | _, _, [] => []
  | s, i, line :: lines =>
    (if isComment line then [s] else []) ++ atComments o (step o s i line).state (i + 1) lines

/-- The comment that the first of some lines, or the place kept in mind, will get. -/
def owed (o : Options) : State → Nat → List Text → Option Text
  | _, _, [] => none
  | s, i, line :: lines =>
    let here := step o s i line
    here.inserted?.or (if here.state.waits then owed o here.state (i + 1) lines else none)

/-- The comment that the place kept in mind will get. -/
def due (o : Options) (s : State) (i : Nat) (lines : List Text) : Option Text :=
  if s.waits then owed o s i lines else none

/-- The comment that goes directly above the first of some lines. -/
def above (o : Options) (s : State) (i : Nat) (lines : List Text) : Option Text :=
  if s.waits then none else owed o s i lines

/-- The edits of some lines, each at its line. -/
def placed (o : Options) : State → Nat → List Text → List Edit
  | _, _, [] => []
  | s, i, line :: lines =>
    (above o s i (line :: lines)).toList.map (.insert i) ++ deletion o i line ++
      placed o (step o s i line).state (i + 1) lines

theorem owed_cons : owed o s i (line :: lines) =
    (step o s i line).inserted?.or (due o (step o s i line).state (i + 1) lines) := rfl

@[simp] theorem due_nil : due o s i [] = none := by simp [due, owed]

theorem due_of_not_waits (h : s.waits = false) : due o s i lines = none := by simp [due, h]

theorem due_or_above : (due o s i lines).or (above o s i lines) = owed o s i lines := by
  cases h : s.waits <;> simp [due, above, h]

theorem owed_of_comment (hc : isComment line = true) : owed o s i (line :: lines) = none := by
  rw [owed_cons, inserted?_of_comment hc, due_of_not_waits (waits_of_comment hc)]
  rfl

theorem editsFrom_append (a b : List Text) : editsFrom o s i (a ++ b) =
    editsFrom o s i a ++ editsFrom o (after o s i a) (i + a.length) b := by
  induction a generalizing s i with
  | nil => simp [editsFrom, after]
  | cons line a ih => simp [editsFrom, after, ih, Nat.add_assoc, Nat.add_comm 1]

theorem due_of_comment (hc : isComment line = true) : due o s i (line :: lines) = none := by
  simp [due, owed_of_comment hc]

theorem above_of_comment (hc : isComment line = true) : above o s i (line :: lines) = none := by
  simp [above, owed_of_comment hc]

theorem runFrom_result (total : Nat) :
    (runFrom o (fun _ => false) total s i lines).result = .ok (editsFrom o s i lines) := by
  induction lines generalizing s i with
  | nil => rfl
  | cons line lines ih => simp [runFrom, Report.cons, editsFrom, ih, Except.map]

theorem edits_eq_editsFrom (o : Options) (lines : List Text) :
    edits o lines = editsFrom o .neutral 0 lines := by
  simp [edits, run, Report.edits, runFrom_result]

/-- A pass first finds the comment for the place it keeps in mind, then those of the lines
below. -/
theorem editsFrom_eq (h : s.Tidy) : editsFrom o s i lines =
    (due o s i lines).toList.map (.insert (s.anchor?.getD i)) ++ placed o s i lines := by
  induction lines generalizing s i with
  | nil => simp [editsFrom, placed]
  | cons line lines ih =>
    have hnext := ih (i := i + 1) (tidy_step (o := o) (i := i) h : (step o s i line).state.Tidy)
    have hplace : (due o (step o s i line).state (i + 1) lines).toList.map
          (.insert ((step o s i line).state.anchor?.getD (i + 1))) =
        (due o (step o s i line).state (i + 1) lines).toList.map
          (Edit.insert (s.anchor?.getD i)) := by
      cases ha : (step o s i line).state.anchor? with
      | none => simp [due, State.waits, ha]
      | some a => simp [anchor?_step h ha]
    have hone : (step o s i line).inserted?.toList.map (.insert (s.anchor?.getD i)) ++
          (due o (step o s i line).state (i + 1) lines).toList.map (.insert (s.anchor?.getD i)) =
        (owed o s i (line :: lines)).toList.map (Edit.insert (s.anchor?.getD i)) := by
      rw [owed_cons]
      cases ht : (step o s i line).inserted? with
      | none => simp
      | some text => simp [due_of_not_waits (waits_of_inserted h ht)]
    calc editsFrom o s i (line :: lines)
      _ = deletion o i line ++
            (owed o s i (line :: lines)).toList.map (.insert (s.anchor?.getD i)) ++
            placed o (step o s i line).state (i + 1) lines := by
          rw [editsFrom, step_edits, hnext, hplace, ← hone]
          simp only [List.append_assoc]
      _ = (owed o s i (line :: lines)).toList.map (.insert (s.anchor?.getD i)) ++
            deletion o i line ++ placed o (step o s i line).state (i + 1) lines := by
          cases hc : isComment line with
          | true => simp [owed_of_comment hc]
          | false => simp [deletion, hc]
      _ = _ := by
          rw [placed]
          cases ha : s.anchor? <;> simp [due, above, State.waits, ha]

theorem edits_eq_placed (o : Options) (lines : List Text) :
    edits o lines = placed o .neutral 0 lines := by
  rw [edits_eq_editsFrom, editsFrom_eq tidy_neutral]
  rfl

/-- Each edit is at one of the lines. -/
theorem placed_bounds {e : Edit} (he : e ∈ placed o s i lines) :
    i ≤ e.line ∧ e.line < i + lines.length := by
  induction lines generalizing s i with
  | nil => simp [placed] at he
  | cons line lines ih =>
    simp only [placed, List.mem_append] at he
    rcases he with (he | he) | he
    · obtain ⟨text, -, rfl⟩ := List.mem_map.mp he
      simp [Edit.line]
    · simp only [deletion] at he
      split at he <;> simp_all [Edit.line]
    · have := ih he
      simp only [List.length_cons]
      omega

/-- No line has more than one edit. -/
theorem placed_sorted : (placed o s i lines).Pairwise (·.line < ·.line) := by
  induction lines generalizing s i with
  | nil => exact .nil
  | cons line lines ih =>
    rw [placed, List.pairwise_append]
    refine ⟨?_, ih, ?_⟩
    · cases hc : isComment line with
      | true =>
        simp only [above, owed_of_comment hc, deletion]
        split <;> split <;> simp
      | false => cases above o s i (line :: lines) <;> simp [deletion, hc]
    · intro a ha b hb
      have hline : a.line = i := by
        rcases List.mem_append.mp ha with ha | ha
        · obtain ⟨text, -, rfl⟩ := List.mem_map.mp ha
          rfl
        · simp only [deletion] at ha
          split at ha <;> simp_all [Edit.line]
      have := placed_bounds hb
      omega

end TripleSlash.Scan
