import TripleSlash.Proofs.Scan.Lists

/-! Files in parts. What a pass does below a place depends on the lines above only through its
state there, and the numbers of lines only count from the top. So where the state is neutral, the
lines above and below are documented independently. -/
namespace TripleSlash

variable {n : Nat}

/-- The same edit with `n` more lines above. -/
def Edit.shift (n : Nat) : Edit → Edit
  | insert line text => insert (line + n) text
  | delete line => delete (line + n)

/-- The same comment with `n` more lines above its declaration. -/
def Comment.Pending.shift (n : Nat) (p : Pending) : Pending :=
  { p with
    insertAt := p.insertAt + n
    declaredAt := p.declaredAt + n }

namespace Scan

variable {o : Options} {s : State} {i : Nat} {line : Text} {a b lines : List Text}
  {d : Declaration}

def OpenList.shift (n : Nat) : OpenList → OpenList
  | commented p => commented (p.shift n)
  | bare depth => bare depth

/-- The same state with `n` more lines above. -/
def State.shift (n : Nat) (s : State) : State :=
  { s with
    attributesAt := s.attributesAt.map (· + n)
    openList := s.openList.map (OpenList.shift n) }

def Notice.shift (n : Nat) : Notice → Notice
  | dropped declaredAt => dropped (declaredAt + n)
  | neverClosed declaredAt => neverClosed (declaredAt + n)
  | complete mode lines edits => complete mode lines edits

def Step.shift (n : Nat) (t : Step) : Step :=
  ⟨t.state.shift n, t.edits.map (Edit.shift n), t.notices.map (Notice.shift n)⟩

theorem shift_neutral (n : Nat) : State.neutral.shift n = .neutral := rfl

theorem onComment_shift : onComment o (s.shift n) (i + n) = (onComment o s i).shift n := by
  obtain ⟨afterComment, attributesAt, openList⟩ := s
  have hedits : (if o.mode = .regenerate then [Edit.delete (i + n)] else []) =
      (if o.mode = .regenerate then [Edit.delete i] else []).map (Edit.shift n) := by
    split <;> rfl
  simp only [onComment, Step.shift, hedits]
  cases openList with
  | none => rfl
  | some list => cases list <;> rfl

theorem onListLine_shift (list : OpenList) :
    onListLine o (s.shift n) line (list.shift n) = (onListLine o s line list).shift n := by
  cases list with
  | commented p =>
    have hfinish : (p.shift n).finish? o.templates line = p.finish? o.templates line := rfl
    simp only [onListLine, OpenList.shift, hfinish]
    cases p.finish? o.templates line <;> rfl
  | bare depth =>
    simp only [onListLine, OpenList.shift]
    cases Parens.scan depth line <;> rfl

theorem getD_shift (i n : Nat) (at? : Option Nat) :
    (at?.map (· + n)).getD (i + n) = at?.getD i + n := by
  cases at? <;> rfl

theorem onAttribute_shift : onAttribute (s.shift n) (i + n) = (onAttribute s i).shift n := by
  simp only [onAttribute, State.shift, getD_shift]
  rfl

theorem onDeclaration_shift :
    onDeclaration o (s.shift n) (i + n) d = (onDeclaration o s i d).shift n := by
  have hcomment : comment? o (s.shift n) d = comment? o s d := rfl
  have hplace : (s.shift n).attributesAt.getD (i + n) = s.attributesAt.getD i + n :=
    getD_shift i n s.attributesAt
  simp only [onDeclaration, hcomment, hplace]
  cases comment? o s d <;> cases d.isOpen <;> rfl

/-- A line does the same wherever it stands. -/
theorem step_shift : step o (s.shift n) (i + n) line = (step o s i line).shift n := by
  by_cases hc : isComment line = true
  · simp only [step, hc, if_true]
    exact onComment_shift
  · have hc : isComment line = false := by simpa using hc
    cases hopen : s.openList with
    | some list =>
      have hopen' : (s.shift n).openList = some (list.shift n) := by simp [State.shift, hopen]
      simp only [step, hc, hopen, hopen']
      exact onListLine_shift list
    | none =>
      have hopen' : (s.shift n).openList = none := by simp [State.shift, hopen]
      cases ha : isAttribute line with
      | true =>
        rw [step_of_attribute hc hopen ha, step_of_attribute hc hopen' ha]
        exact onAttribute_shift
      | false =>
        cases hd : Declaration.recognize? line with
        | none =>
          rw [step_of_other hc hopen ha hd, step_of_other hc hopen' ha hd]
          rfl
        | some d =>
          rw [step_of_declaration hc hopen ha hd, step_of_declaration hc hopen' ha hd]
          exact onDeclaration_shift

theorem editsFrom_shift :
    editsFrom o (s.shift n) (i + n) lines = (editsFrom o s i lines).map (Edit.shift n) := by
  induction lines generalizing s i with
  | nil => rfl
  | cons line lines ih =>
    have hrest := @ih (step o s i line).state (i + 1)
    rw [Nat.add_right_comm] at hrest
    rw [editsFrom, editsFrom, List.map_append, ← hrest, step_shift]
    rfl

theorem after_append : after o s i (a ++ b) = after o (after o s i a) (i + a.length) b := by
  induction a generalizing s i with
  | nil => rfl
  | cons line a ih =>
    have hrest := @ih (step o s i line).state (i + 1)
    rw [Nat.add_assoc, Nat.add_comm 1] at hrest
    exact hrest

/-- Below a place where nothing above matters a pass begins anew. -/
theorem edits_append (h : after o .neutral 0 a = .neutral) (b : List Text) :
    edits o (a ++ b) = edits o a ++ (edits o b).map (Edit.shift a.length) := by
  have hbelow := @editsFrom_shift a.length o .neutral 0 b
  rw [shift_neutral] at hbelow
  rw [edits_eq_editsFrom, edits_eq_editsFrom, edits_eq_editsFrom, editsFrom_append, h, hbelow]

/-- A line of no kind ends all that stood above it, unless it stands in a parameter list. -/
theorem step_of_classify_other (hl : s.openList = none) (h : classify line = .other) :
    step o s i line = ⟨.neutral, [], []⟩ := by
  unfold classify at h
  split at h
  · simp at h
  next hc =>
    split at h
    · simp at h
    next ha =>
      split at h
      · simp at h
      next hd => exact step_of_other (by simpa using hc) hl (by simpa using ha) hd

/-- Edits are local. Where the state of a pass is neutral, the edits of the lines below are those
that they have on their own, at line numbers raised by the lines above. A line that is no comment,
attribute or declaration, and that stands in no parameter list, leaves a neutral state and has no
edit, so it separates a file into two parts that are documented independently. -/
theorem edits_local (o : Options) (a : List Text) :
    (after o .neutral 0 a = .neutral →
      ∀ b, edits o (a ++ b) = edits o a ++ (edits o b).map (Edit.shift a.length)) ∧
    ∀ line, (after o .neutral 0 a).openList = none → classify line = .other →
      after o .neutral 0 (a ++ [line]) = .neutral ∧
      ∀ b, edits o (a ++ line :: b) =
        edits o a ++ (edits o b).map (Edit.shift (a.length + 1)) := by
  refine ⟨edits_append, fun line hl h => ?_⟩
  have hstep := step_of_classify_other (o := o) (i := 0 + a.length) hl h
  have hneutral : after o .neutral 0 (a ++ [line]) = .neutral := by
    rw [after_append, after, hstep]
    rfl
  have hquiet : edits o (a ++ [line]) = edits o a := by
    rw [edits_eq_editsFrom, edits_eq_editsFrom, editsFrom_append, editsFrom, hstep]
    exact List.append_nil _
  refine ⟨hneutral, fun b => ?_⟩
  have hparts := edits_append hneutral b
  rwa [hquiet, List.append_assoc, List.singleton_append, List.length_append,
    List.length_singleton] at hparts

/-- The options of a pass with the stock templates. -/
def stockOptions : Options := ⟨.stock, .visible, .fillMissing, ['\n']⟩

/-- A method with an attribute, whose parameters are on two lines. -/
def wrappedRun : List Text := ["[Test]", "public void Run(int first,", "    string second);"]

def plainClass : List Text := ["public class A"]

theorem edits_local_wrappedRun :
    after stockOptions .neutral 0 wrappedRun = .neutral ∧
      edits stockOptions (wrappedRun ++ plainClass) =
        edits stockOptions wrappedRun ++ (edits stockOptions plainClass).map (Edit.shift 3) ∧
      (after stockOptions .neutral 0 ["[Test]"]).openList = none ∧
      classify "    // Later." = .other ∧
      after stockOptions .neutral 0 ["[Test]", "    // Later."] = .neutral ∧
      edits stockOptions ("[Test]" :: "    // Later." :: wrappedRun) =
        edits stockOptions ["[Test]"] ++ (edits stockOptions wrappedRun).map (Edit.shift 2) := by
  have hneutral : after stockOptions .neutral 0 wrappedRun = .neutral := by decide +kernel
  have hclosed : (after stockOptions .neutral 0 ["[Test]"]).openList = none := by decide +kernel
  have hother : classify "    // Later." = .other := by decide +kernel
  have hseparated := (edits_local stockOptions ["[Test]"]).2 _ hclosed hother
  exact ⟨hneutral, (edits_local stockOptions wrappedRun).1 hneutral plainClass, hclosed, hother,
    hseparated.1, hseparated.2 wrappedRun⟩

end Scan
end TripleSlash
