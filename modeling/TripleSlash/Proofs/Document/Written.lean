import TripleSlash.Document.Pass
import TripleSlash.Proofs.Document.Lines
import TripleSlash.Proofs.Scan.Foresight

/-! What a pass makes of a document, line by line: each line with the comment that goes above it.
The edits of a pass always apply, and this is the text that they give. -/
namespace TripleSlash

namespace Scan

/-- A line, unless the pass takes it out. -/
def kept (o : Options) (l : Line) : List Line :=
  if o.mode = .regenerate ∧ isComment l.text then [] else [l]

/-- The lines that a pass writes for some lines. -/
def written (o : Options) : State → Nat → List Line → List Line
  | _, _, [] => []
  | s, i, l :: lines =>
    Line.ofText ((above o s i ((l :: lines).map Line.text)).getD []) ++ kept o l ++
      written o (step o s i l.text).state (i + 1) lines

end Scan

namespace Line

open Scan

variable {o : Options} {s : State} {doc before lines : List Line} {l : Line} {es : List Edit}

/-- A line without edits is copied. -/
theorem applyFrom_succ (hd : doc = before ++ l :: lines) (he : ∀ e ∈ es, before.length < e.line) :
    applyFrom doc before.length es =
      (applyFrom doc (before.length + 1) es).map (l.full ++ ·) := by
  cases es with
  | nil => simp [applyFrom, hd, Except.map, List.drop_append, List.drop_of_length_le]
  | cons e es =>
    have hlt : before.length < e.line := he e (by simp)
    have hkept : (doc.take e.line).drop before.length =
        l :: (doc.take e.line).drop (before.length + 1) := by
      obtain ⟨n, hn⟩ := Nat.exists_eq_add_of_lt hlt
      simp [hd, hn, Nat.add_assoc, List.take_append, List.drop_append, List.drop_of_length_le]
    unfold applyFrom
    by_cases hr : doc.length ≤ e.line
    · simp [hr, Except.map]
    · simp only [hr, if_false, show ¬ e.line < before.length by omega,
        show ¬ e.line < before.length + 1 by omega, hkept, join_cons]
      cases e with
      | insert n text =>
        dsimp only
        cases applyFrom doc n es <;> simp [Except.map, bind, Except.bind, pure, Except.pure]
      | delete n =>
        dsimp only
        cases applyFrom doc (n + 1) es <;> simp [Except.map, bind, Except.bind, pure, Except.pure]

theorem applyFrom_insert (hd : doc = before ++ l :: lines) (text : Text) :
    applyFrom doc before.length (.insert before.length text :: es) =
      (applyFrom doc before.length es).map (text ++ ·) := by
  conv => lhs; unfold applyFrom
  have hr : ¬ doc.length ≤ before.length := by simp [hd]
  have hkept : (doc.take before.length).drop before.length = [] := by simp
  simp only [Edit.line, hr, if_false, Nat.lt_irrefl, hkept, join_nil]
  cases applyFrom doc before.length es <;> rfl

theorem applyFrom_delete (hd : doc = before ++ l :: lines) :
    applyFrom doc before.length (.delete before.length :: es) =
      applyFrom doc (before.length + 1) es := by
  conv => lhs; unfold applyFrom
  have hr : ¬ doc.length ≤ before.length := by simp [hd]
  have hkept : (doc.take before.length).drop before.length = [] := by simp
  simp only [Edit.line, hr, if_false, Nat.lt_irrefl, hkept, join_nil]
  cases applyFrom doc (before.length + 1) es <;> rfl

theorem applyFrom_placed (hd : doc = before ++ lines) :
    applyFrom doc before.length (placed o s before.length (lines.map text)) =
      .ok (join (written o s before.length lines)) := by
  induction lines generalizing before s with
  | nil => simp [placed, applyFrom, written, hd]
  | cons l lines ih =>
    have hrest := @ih (step o s before.length l.text).state (before ++ [l]) (by simp [hd])
    simp only [List.length_append, List.length_singleton] at hrest
    have hcopy : applyFrom doc before.length
          (placed o (step o s before.length l.text).state (before.length + 1) (lines.map text)) =
        .ok (l.full ++
          join (written o (step o s before.length l.text).state (before.length + 1) lines)) := by
      rw [applyFrom_succ hd, hrest]
      · rfl
      · intro e he
        have := (placed_bounds he).1
        omega
    rw [List.map_cons, placed, written, List.map_cons]
    by_cases hdel : o.mode = .regenerate ∧ isComment l.text
    · have habove : above o s before.length (l.text :: lines.map text) = none := by
        simp [above, owed_of_comment hdel.2]
      simp [habove, deletion, kept, hdel, applyFrom_delete hd, hrest, ofText]
    · cases ha : above o s before.length (l.text :: lines.map text) with
      | none => simp [deletion, kept, hdel, hcopy, ofText]
      | some comment =>
        simp [deletion, kept, hdel, applyFrom_insert hd, hcopy, Except.map, join_ofText]

theorem apply_of_sorted (h : es.Pairwise (·.line < ·.line)) :
    apply doc es = applyFrom doc 0 es := by
  have hs : es.Pairwise fun a b => decide (a.line ≤ b.line) = true :=
    h.imp fun hab => by simpa using Nat.le_of_lt hab
  rw [apply, List.mergeSort_of_pairwise hs]

end Line

namespace Settings

/-- The text that a pass writes. -/
def rewrite (s : Settings) (mode : Mode) (source : Text) : List Line :=
  let lines := Line.ofText source
  Scan.written (s.options mode (Line.firstBreak lines)) .neutral 0 lines

/-- The states in which a pass meets the comments of a text. -/
def met (s : Settings) (mode : Mode) (source : Text) : List Scan.State :=
  let lines := Line.ofText source
  Scan.atComments (s.options mode (Line.firstBreak lines)) .neutral 0 (lines.map Line.text)

variable {s : Settings} {mode : Mode} {source : Text}

theorem pass_edits : (s.pass mode source).edits =
    Scan.placed (s.options mode (Line.firstBreak (Line.ofText source))) .neutral 0
      ((Line.ofText source).map Line.text) :=
  Scan.edits_eq_placed _ _

/-- A pass under the line break that it finds. -/
theorem pass_of_firstBreak {br : LineBreak} (h : Line.firstBreak (Line.ofText source) = br) :
    (s.pass mode source).edits =
        Scan.edits (s.options mode br) ((Line.ofText source).map Line.text) ∧
      (s.pass mode source).text = Line.apply (Line.ofText source) (s.pass mode source).edits := by
  subst h
  exact ⟨rfl, rfl⟩

/-- The edits of a pass apply to its document. -/
theorem pass_text : (s.pass mode source).text = .ok (Line.join (s.rewrite mode source)) := by
  have hes : (s.pass mode source).edits = _ := pass_edits
  change Line.apply (Line.ofText source) (s.pass mode source).edits = _
  rw [hes, Line.apply_of_sorted Scan.placed_sorted]
  have happly := Line.applyFrom_placed (o := s.options mode (Line.firstBreak (Line.ofText source)))
    (s := .neutral) (List.nil_append (Line.ofText source)).symm
  exact happly

end Settings
end TripleSlash
