import TripleSlash.Proofs.Comment.Indented
import TripleSlash.Proofs.Document.Mapped
import TripleSlash.Proofs.Scan.Cases
import TripleSlash.Proofs.Scan.Lists

/-! A pass over indented lines. It goes through the same states but for the indents of the comment
that waits, and makes the same edits but for the indents of their texts. -/
namespace TripleSlash

open Comment Text

variable {w t : Text} {n : Nat} {br : LineBreak}

/-- The text of an edit, if it has one, ends in a line break. -/
def Edit.Ended (e : Edit) : Prop := ∀ n t, e = .insert n t → t.getLast? = some '\n'

theorem Edit.ended_insert (ht : t.getLast? = some '\n') : (insert n t).Ended := by
  rintro n' t' h
  obtain ⟨-, rfl⟩ := insert.inj h
  exact ht

theorem Edit.ended_delete : (delete n).Ended := by simp [Ended]

namespace Scan

variable {o : Options} {s : State} {i : Nat} {line : Text} {lines : List Text} {d : Declaration}

/-- The same list, its comment with an indent in front of each line. -/
def OpenList.indented (w : Text) : OpenList → OpenList
  | commented p => commented (p.indented w)
  | bare depth => bare depth

/-- The same state, its comment with an indent in front of each line. -/
def State.indented (w : Text) (s : State) : State :=
  { s with openList := s.openList.map (OpenList.indented w) }

/-- What a line does, with an indent in front of each line of its comments. -/
def Step.indented (w : Text) (r : Step) : Step :=
  { r with state := r.state.indented w, edits := r.edits.map (Edit.mapText (Text.indented w)) }

/-- The comment that waits, if there is one, ends in a line break. -/
def State.Ended (s : State) : Prop :=
  ∀ p, s.openList = some (.commented p) → p.head.getLast? = some '\n'

theorem ended_neutral : State.neutral.Ended := by simp [State.Ended, State.neutral]

theorem getLast?_comment? (hb : o.lineBreak = br.text) (ht : comment? o s d = some t) :
    t.getLast? = some '\n' := by
  have hr := render?_of_comment? ht
  rw [hb] at hr
  exact getLast?_render? hr

theorem ended_step (i : Nat) (line : Text) (hb : o.lineBreak = br.text) (h : s.Ended) :
    (step o s i line).state.Ended ∧ ∀ e ∈ (step o s i line).edits, e.Ended := by
  generalize hr : step o s i line = r
  cases hr ▸ step_case o s i line with
  | comment hc =>
    refine ⟨by simp [State.Ended, onComment, State.neutral], ?_⟩
    unfold onComment
    split <;> simp [Edit.ended_delete]
  | @finished p text hc hl hf =>
    refine ⟨by simp [State.Ended], ?_⟩
    have hwaiting : (p.accept o.templates line).head.getLast? = some '\n' := h p hl
    unfold Pending.finish? at hf
    split at hf
    · obtain rfl := Option.some.inj hf
      simpa using Edit.ended_insert (Pending.getLast?_assembled hwaiting)
    · simp at hf
  | @pending p hc hl hf =>
    refine ⟨?_, by simp⟩
    intro p' hp
    obtain rfl : _ = p' := by simpa using hp
    exact h p hl
  | opening hc hl ha hd ht ho =>
    refine ⟨?_, by simp⟩
    intro p hp
    obtain rfl : _ = p := by simpa using hp
    exact getLast?_comment? hb ht
  | whole hc hl ha hd ht ho =>
    refine ⟨ended_neutral, ?_⟩
    simpa using Edit.ended_insert (getLast?_comment? hb ht)
  | _ => simp_all [State.Ended, State.neutral, onAttribute]

theorem ended_editsFrom (hb : o.lineBreak = br.text) (h : s.Ended) :
    ∀ e ∈ editsFrom o s i lines, e.Ended := by
  induction lines generalizing s i with
  | nil => simp [editsFrom]
  | cons line lines ih =>
    obtain ⟨hstate, hedits⟩ := ended_step i line hb h
    intro e he
    rcases List.mem_append.mp he with he | he
    · exact hedits e he
    · exact ih hstate e he

theorem onComment_indented : onComment o (s.indented w) i = (onComment o s i).indented w := by
  obtain ⟨afterComment, attributesAt, openList⟩ := s
  have hedits : (if o.mode = .regenerate then [Edit.delete i] else []) =
      (if o.mode = .regenerate then [Edit.delete i] else []).map
        (Edit.mapText (Text.indented w)) := by
    split <;> rfl
  simp only [onComment, Step.indented, ← hedits]
  cases openList with
  | none => rfl
  | some list => cases list <;> rfl

theorem onListLine_indented (hw : ∀ c ∈ w, isIndent c = true)
    (hts : SparedBy (addIndent w) o.templates) (hl : '\n' ∉ line) {list : OpenList}
    (h : ∀ p, list = .commented p → p.head.getLast? = some '\n') :
    onListLine o (s.indented w) (w ++ line) (list.indented w) =
      (onListLine o s line list).indented w := by
  cases list with
  | commented p =>
    simp only [onListLine, OpenList.indented, Pending.finish?_indented hw hts hl (h p rfl),
      Pending.accept_indented hw hts hl]
    cases p.finish? o.templates line <;> rfl
  | bare depth =>
    obtain ⟨hcloses, hdepth, -⟩ := Parens.scan_indented hw depth line
    simp only [onListLine, OpenList.indented]
    unfold Parens.closes at hcloses
    unfold Parens.depthAfter at hdepth
    cases hs : Parens.scan depth line <;> cases hs' : Parens.scan depth (w ++ line) <;>
      simp_all [Step.indented, State.indented, OpenList.indented]

theorem comment?_indented (hw : ∀ c ∈ w, isIndent c = true)
    (hts : SparedBy (addIndent w) o.templates) (hb : o.lineBreak = br.text) (hl : '\n' ∉ line)
    (hd : d.Within line) :
    comment? o (s.indented w) (d.indented w) = (comment? o s d).map (Text.indented w) := by
  refine comment?_map rfl rfl rfl ?_
  rw [hb]
  exact render?_indented hw hts hl hd

theorem onDeclaration_indented (hw : ∀ c ∈ w, isIndent c = true)
    (hts : SparedBy (addIndent w) o.templates) (hb : o.lineBreak = br.text) (hl : '\n' ∉ line)
    (hd : d.Within line) :
    onDeclaration o (s.indented w) i (d.indented w) = (onDeclaration o s i d).indented w := by
  have hnewline : newline o.lineBreak (d.indented w).indent =
      Text.subst (addIndent w) (newline o.lineBreak d.indent) := by
    rw [hb]
    exact newline_within hl hd
  have hopen : (d.indented w).isOpen = d.isOpen := rfl
  have hraw : (d.indented w).rawParameters = d.rawParameters := rfl
  simp only [onDeclaration, comment?_indented hw hts hb hl hd, hnewline, hopen, hraw]
  cases comment? o s d <;> cases d.isOpen <;> rfl

/-- A line does the same behind a further indent, but for the indents of comments. -/
theorem step_indented (hw : ∀ c ∈ w, isIndent c = true)
    (hts : SparedBy (addIndent w) o.templates) (hb : o.lineBreak = br.text) (hl : '\n' ∉ line)
    (h : s.Ended) : step o (s.indented w) i (w ++ line) = (step o s i line).indented w := by
  have hcomment := isComment_indented hw line
  by_cases hc : isComment line = true
  · simp only [step, hcomment, hc, if_true]
    exact onComment_indented
  · have hc : isComment line = false := by simpa using hc
    have hc' : isComment (w ++ line) = false := hcomment.trans hc
    cases hopen : s.openList with
    | some list =>
      have hopen' : (s.indented w).openList = some (list.indented w) := by
        simp [State.indented, hopen]
      simp only [step, hc, hc', hopen, hopen']
      exact onListLine_indented hw hts hl fun p hp => h p (by rw [hopen, hp])
    | none =>
      have hopen' : (s.indented w).openList = none := by simp [State.indented, hopen]
      have hattribute := isAttribute_indented hw line
      have hdeclared := Declaration.recognize?_indented hw line
      cases ha : isAttribute line with
      | true =>
        rw [step_of_attribute hc hopen ha, step_of_attribute hc' hopen' (hattribute.trans ha)]
        rfl
      | false =>
        cases hd : Declaration.recognize? line with
        | none =>
          rw [hd] at hdeclared
          rw [step_of_other hc hopen ha hd,
            step_of_other hc' hopen' (hattribute.trans ha) hdeclared]
          rfl
        | some d =>
          rw [hd] at hdeclared
          rw [step_of_declaration hc hopen ha hd,
            step_of_declaration hc' hopen' (hattribute.trans ha) hdeclared]
          exact onDeclaration_indented hw hts hb hl (Declaration.recognize?_within hd)

theorem editsFrom_indented (hw : ∀ c ∈ w, isIndent c = true)
    (hts : SparedBy (addIndent w) o.templates) (hb : o.lineBreak = br.text)
    (hl : ∀ line ∈ lines, '\n' ∉ line) (h : s.Ended) :
    editsFrom o (s.indented w) i (lines.map (w ++ ·)) =
      (editsFrom o s i lines).map (Edit.mapText (Text.indented w)) := by
  induction lines generalizing s i with
  | nil => rfl
  | cons line lines ih =>
    have hstep := step_indented (i := i) hw hts hb (hl line (by simp)) h
    have hended := (ended_step i line hb h).1
    have hrest := ih (i := i + 1) (fun x hx => hl x (by simp [hx])) hended
    rw [editsFrom, List.map_append, ← hrest, List.map_cons, editsFrom, hstep]
    rfl

/-- The edits of a pass over indented lines are those of the lines, with indented texts. -/
theorem edits_indented (hw : ∀ c ∈ w, isIndent c = true)
    (hts : SparedBy (addIndent w) o.templates) (hb : o.lineBreak = br.text)
    (hl : ∀ line ∈ lines, '\n' ∉ line) :
    edits o (lines.map (w ++ ·)) = (edits o lines).map (Edit.mapText (Text.indented w)) := by
  rw [edits_eq_editsFrom, edits_eq_editsFrom]
  exact editsFrom_indented hw hts hb hl ended_neutral

end Scan
end TripleSlash
