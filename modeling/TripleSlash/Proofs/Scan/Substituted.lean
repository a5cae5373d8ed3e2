import TripleSlash.Proofs.Comment.Substituted
import TripleSlash.Proofs.Scan.Cases
import TripleSlash.Proofs.Scan.Lists

/-! A pass that ends the lines of its comments in another way. It goes through the same states but
for the comments that it keeps, and makes the same edits but for their line breaks. -/
namespace TripleSlash

open Comment Text

variable {σ : Char → Text}

/-- An edit with the line breaks of its text written in another way. -/
def Edit.subst (σ : Char → Text) : Edit → Edit
  | insert n t => insert n (Text.subst σ t)
  | delete n => delete n

@[simp] theorem Edit.line_subst (e : Edit) : (e.subst σ).line = e.line := by cases e <;> rfl

namespace Scan

variable {o : Options} {s : State} {i : Nat} {line : Text} {lines : List Text} {d : Declaration}

/-- The same pass with another line break. -/
def Options.subst (σ : Char → Text) (o : Options) : Options :=
  { o with lineBreak := Text.subst σ o.lineBreak }

/-- The same list, its comment with other line breaks. -/
def OpenList.subst (σ : Char → Text) : OpenList → OpenList
  | commented p => commented (p.subst σ)
  | bare depth => bare depth

/-- The same state, its comment with other line breaks. -/
def State.subst (σ : Char → Text) (s : State) : State :=
  { s with openList := s.openList.map (OpenList.subst σ) }

/-- What a line does, with other line breaks in comments. -/
def Step.subst (σ : Char → Text) (t : Step) : Step :=
  { t with state := t.state.subst σ, edits := t.edits.map (Edit.subst σ) }

theorem onComment_subst : onComment (o.subst σ) (s.subst σ) i = (onComment o s i).subst σ := by
  obtain ⟨afterComment, attributesAt, openList⟩ := s
  have hedits : (onComment o ⟨afterComment, attributesAt, openList⟩ i).edits.map (Edit.subst σ) =
      (onComment o ⟨afterComment, attributesAt, openList⟩ i).edits := by
    simp only [onComment]
    split <;> rfl
  rw [Step.subst, hedits]
  cases openList with
  | none => rfl
  | some list => cases list <;> rfl

theorem onListLine_subst (hσ : Rebreaks σ) (hts : SparedBy σ o.templates) (hl : Spares σ line)
    (list : OpenList) : onListLine (o.subst σ) (s.subst σ) line (list.subst σ) =
      (onListLine o s line list).subst σ := by
  cases list with
  | commented p =>
    have htemplates : (o.subst σ).templates = o.templates := rfl
    simp only [onListLine, OpenList.subst, htemplates, Pending.finish?_subst hσ hts hl,
      Pending.accept_subst hts hl]
    cases p.finish? o.templates line <;> rfl
  | bare depth =>
    simp only [onListLine, OpenList.subst]
    cases Parens.scan depth line <;> rfl

theorem comment?_subst (hσ : Rebreaks σ) (hts : SparedBy σ o.templates) (hl : Spares σ line)
    (hd : d.Within line) : comment? (o.subst σ) (s.subst σ) d =
      (comment? o s d).map (Text.subst σ) :=
  comment?_map rfl rfl rfl (render?_subst hσ hts hl hd)

theorem onDeclaration_subst (hσ : Rebreaks σ) (hts : SparedBy σ o.templates) (hl : Spares σ line)
    (hd : d.Within line) : onDeclaration (o.subst σ) (s.subst σ) i d =
      (onDeclaration o s i d).subst σ := by
  have hnewline : newline (o.subst σ).lineBreak d.indent =
      Text.subst σ (newline o.lineBreak d.indent) := newline_subst hl hd o.lineBreak
  simp only [onDeclaration, comment?_subst hσ hts hl hd, hnewline]
  cases comment? o s d <;> cases d.isOpen <;> rfl

/-- A line without line breaks does the same in both passes. -/
theorem step_subst (hσ : Rebreaks σ) (hts : SparedBy σ o.templates) (hl : Spares σ line) :
    step (o.subst σ) (s.subst σ) i line = (step o s i line).subst σ := by
  by_cases hc : isComment line = true
  · simp only [step, hc, if_true]
    exact onComment_subst
  · have hc : isComment line = false := by simpa using hc
    cases hopen : s.openList with
    | some list =>
      have hopen' : (s.subst σ).openList = some (list.subst σ) := by simp [State.subst, hopen]
      simp only [step, hc, hopen, hopen']
      exact onListLine_subst hσ hts hl list
    | none =>
      have hopen' : (s.subst σ).openList = none := by simp [State.subst, hopen]
      cases ha : isAttribute line with
      | true =>
        rw [step_of_attribute hc hopen ha, step_of_attribute hc hopen' ha]
        rfl
      | false =>
        cases hd : Declaration.recognize? line with
        | none =>
          rw [step_of_other hc hopen ha hd, step_of_other hc hopen' ha hd]
          rfl
        | some d =>
          rw [step_of_declaration hc hopen ha hd, step_of_declaration hc hopen' ha hd]
          exact onDeclaration_subst hσ hts hl (Declaration.recognize?_within hd)

theorem editsFrom_subst (hσ : Rebreaks σ) (hts : SparedBy σ o.templates)
    (hl : ∀ line ∈ lines, Spares σ line) : editsFrom (o.subst σ) (s.subst σ) i lines =
      (editsFrom o s i lines).map (Edit.subst σ) := by
  induction lines generalizing s i with
  | nil => rfl
  | cons line lines ih =>
    have hstep := step_subst (s := s) (i := i) hσ hts (hl line (by simp))
    have hrest := @ih (step o s i line).state (i + 1) fun x hx => hl x (by simp [hx])
    rw [editsFrom, editsFrom, List.map_append, ← hrest, hstep]
    rfl

/-- A pass with another line break makes the same edits with other line breaks. -/
theorem edits_subst (hσ : Rebreaks σ) (hts : SparedBy σ o.templates)
    (hl : ∀ line ∈ lines, Spares σ line) :
    edits (o.subst σ) lines = (edits o lines).map (Edit.subst σ) := by
  rw [edits_eq_editsFrom, edits_eq_editsFrom]
  exact editsFrom_subst (s := .neutral) hσ hts hl

end Scan
end TripleSlash
