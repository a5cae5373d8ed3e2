import TripleSlash.Proofs.Comment.Used
import TripleSlash.Proofs.Scan.Completed

/-! A pass with other templates. It goes through the same states but for the comment that waits, and
makes the same edits but for the texts of comments. Each of these is a complete comment, so it
changes only where it uses a template that changes. -/
namespace TripleSlash.Scan

open Comment

variable {o : Options} {ts : Templates} {s s' : State} {lines : List Text} {j : Nat}
  {line text : Text} {a a' : OpenList}

/-- The same pass with other templates. -/
def Options.retemplate (o : Options) (ts : Templates) : Options := { o with templates := ts }

/-- A list without the text of its comment. -/
def OpenList.stripped : OpenList → OpenList
  | commented p => commented { p with head := [], entries := [] }
  | bare depth => bare depth

/-- A state without the text of the comment that waits. -/
def State.stripped (s : State) : State := { s with openList := s.openList.map OpenList.stripped }

@[simp] theorem OpenList.depth_stripped (a : OpenList) : a.stripped.depth = a.depth := by
  cases a <;> rfl

@[simp] theorem OpenList.isBare_stripped (a : OpenList) : a.stripped.isBare = a.isBare := by
  cases a <;> rfl

@[simp] theorem State.anchor?_stripped (s : State) : s.stripped.anchor? = s.anchor? := by
  obtain ⟨afterComment, attributesAt, openList⟩ := s
  rcases openList with _ | p | depth <;> rfl

@[simp] theorem State.declaring_stripped (s : State) (i : Nat) :
    s.stripped.declaring i = s.declaring i := by
  obtain ⟨afterComment, attributesAt, openList⟩ := s
  rcases openList with _ | p | depth <;> rfl

theorem eq_of_stripped (h : s.stripped = s'.stripped) (hl : s.openList = none) : s = s' := by
  obtain ⟨afterComment, attributesAt, openList⟩ := s
  obtain ⟨afterComment', attributesAt', openList'⟩ := s'
  obtain rfl : openList = none := hl
  obtain ⟨rfl, rfl, hlist⟩ := State.mk.inj h
  obtain rfl : openList' = none := Option.map_eq_none_iff.mp hlist.symm
  rfl

theorem list_of_stripped (h : s.stripped = s'.stripped) (hl : s.openList = some a) :
    ∃ a', s'.openList = some a' ∧ a.stripped = a'.stripped ∧
      s' = { s with openList := some a' } := by
  obtain ⟨afterComment, attributesAt, openList⟩ := s
  obtain ⟨afterComment', attributesAt', openList'⟩ := s'
  obtain rfl : openList = some a := hl
  obtain ⟨rfl, rfl, hlist⟩ := State.mk.inj h
  obtain ⟨a', rfl, ha⟩ := Option.map_eq_some_iff.mp hlist.symm
  exact ⟨a', rfl, ha.symm, rfl⟩

theorem OpenList.stripped_next (h : a.stripped = a'.stripped) (ts ts' : Templates) (line : Text) :
    (a.next ts line).stripped = (a'.next ts' line).stripped := by
  cases a <;> cases a' <;> simp_all [stripped, next, Pending.accept]

/-- Which declarations have comments does not depend on what the templates say. -/
theorem comment?_retemplate (o : Options) (ts : Templates) (s : State) (d : Declaration) :
    (comment? (o.retemplate ts) s d).isSome = (comment? o s d).isSome := by
  obtain ⟨f, hf⟩ : ∃ f : Text → Text,
      render? ts o.lineBreak d = (render? o.templates o.lineBreak d).map f := by
    rw [render?, render?, body?, body?, template?_eq, template?_eq]
    cases d.kind.slot? with
    | none => exact ⟨id, rfl⟩
    | some slot => exact ⟨fun _ => _, rfl⟩
  have hcomment : comment? (o.retemplate ts) s d = (comment? o s d).map f :=
    comment?_map rfl rfl rfl hf
  rw [hcomment, Option.isSome_map]

/-- At a declaration both passes do the same, but for the text of its comment. -/
theorem onDeclaration_retemplate (o : Options) (ts : Templates) (s : State) (i : Nat)
    (d : Declaration) :
    (onDeclaration (o.retemplate ts) s i d).state.stripped =
        (onDeclaration o s i d).state.stripped ∧
      (onDeclaration (o.retemplate ts) s i d).inserted?.isSome =
        (onDeclaration o s i d).inserted?.isSome := by
  have hsome := comment?_retemplate o ts s d
  cases ho : d.isOpen with
  | false =>
    obtain ⟨hstate, hins⟩ := onDeclaration_of_whole (o := o) (s := s) (i := i) ho
    obtain ⟨hstate', hins'⟩ := onDeclaration_of_whole (o := o.retemplate ts) (s := s) (i := i) ho
    rw [hstate, hstate', hins, hins']
    exact ⟨rfl, hsome⟩
  | true =>
    cases hc : comment? o s d <;> cases hc' : comment? (o.retemplate ts) s d <;>
      simp_all [onDeclaration, Step.inserted?, State.stripped, OpenList.stripped, Pending.start,
        Options.retemplate]

/-- A line does the same in both passes, but for the text of a comment. -/
theorem step_retemplate (i : Nat) (line : Text) (h : s.stripped = s'.stripped) :
    (step o s i line).state.stripped = (step (o.retemplate ts) s' i line).state.stripped ∧
      (step o s i line).inserted?.isSome =
        (step (o.retemplate ts) s' i line).inserted?.isSome := by
  cases hc : isComment line with
  | true =>
    rw [step_of_comment hc, step_of_comment hc, inserted?_of_comment hc, inserted?_of_comment hc]
    exact ⟨rfl, rfl⟩
  | false =>
    cases hl : s.openList with
    | some a =>
      obtain ⟨a', hl', ha, rfl⟩ := list_of_stripped h hl
      have hdepth : a.depth = a'.depth := by simpa using congrArg OpenList.depth ha
      have hbare : a.isBare = a'.isBare := by simpa using congrArg OpenList.isBare ha
      cases hclose : Parens.closes a.depth line with
      | true =>
        obtain ⟨hstate, hins⟩ := step_of_closes (o := o) (i := i) hc hl hclose
        obtain ⟨hstate', hins'⟩ :=
          step_of_closes (o := o.retemplate ts) (i := i) hc hl' (hdepth ▸ hclose)
        refine ⟨by rw [hstate, hstate'], ?_⟩
        rw [Bool.eq_iff_iff, ← not_iff_not]
        simp only [Bool.not_eq_true, Option.isSome_eq_false_iff, Option.isNone_iff_eq_none, hins,
          hins', hbare]
      | false =>
        have hclose' : Parens.closes a'.depth line = false := hdepth ▸ hclose
        rw [step_of_unclosed hc hl hclose, step_of_unclosed hc hl' hclose',
          (step_of_not_closes hc hl hclose).1, (step_of_not_closes hc hl' hclose').1]
        refine ⟨?_, rfl⟩
        have hnext := OpenList.stripped_next ha o.templates ts line
        simp only [State.stripped, Option.map_some, hnext]
        rfl
    | none =>
      obtain rfl := eq_of_stripped h hl
      cases ha : isAttribute line with
      | true =>
        rw [step_of_attribute hc hl ha, step_of_attribute hc hl ha]
        exact ⟨rfl, rfl⟩
      | false =>
        cases hd : Declaration.recognize? line with
        | none =>
          rw [step_of_other hc hl ha hd, step_of_other hc hl ha hd]
          exact ⟨rfl, rfl⟩
        | some d =>
          rw [step_of_declaration hc hl ha hd, step_of_declaration hc hl ha hd]
          obtain ⟨hstate, hins⟩ := onDeclaration_retemplate o ts s i d
          exact ⟨hstate.symm, hins.symm⟩

/-- What becomes of an edit when templates change: a comment that uses one of them gets another
text, and every other edit stays the same. -/
inductive Retold (lines : List Text) (changed : Templates.Slot → Prop) : Edit → Edit → Prop where
  | same (e : Edit) : Retold lines changed e e
  /-- The comment of the declaration on the lines from `i` to `j`. -/
  | comment {i j n : Nat} {d : Declaration} {slot : Templates.Slot} {text text' : Text}
      (he : EndsAt lines i d j) (hn : RunStart lines i n)
      (hu : d.Uses (d.listed (between lines i (j + 1))) slot) (hc : changed slot) :
      Retold lines changed (.insert n text) (.insert n text')

theorem Retold.mono {changed changed' : Templates.Slot → Prop} {e e' : Edit}
    (h : Retold lines changed e e') (hc : ∀ slot, changed slot → changed' slot) :
    Retold lines changed' e e' := by
  cases h with
  | same => exact .same e
  | comment he hn hu hslot => exact .comment he hn hu (hc _ hslot)

/-- What both passes know between two lines. -/
structure Together (o : Options) (ts : Templates) (lines : List Text) (j : Nat)
    (s s' : State) : Prop where
  same : s.stripped = s'.stripped
  knows : Knows o lines j s
  gathers : Gathers o lines j s
  knows' : Knows (o.retemplate ts) lines j s'
  gathers' : Gathers (o.retemplate ts) lines j s'

theorem together_neutral (o : Options) (ts : Templates) (lines : List Text) :
    Together o ts lines 0 .neutral .neutral :=
  ⟨rfl, knows_neutral _ _, gathers_of_rest rfl, knows_neutral _ _, gathers_of_rest rfl⟩

theorem together_step (hline : lines[j]? = some line) (h : Together o ts lines j s s') :
    Together o ts lines (j + 1) (step o s j line).state
      (step (o.retemplate ts) s' j line).state where
  same := (step_retemplate j line h.same).1
  knows := knows_step hline h.knows
  gathers := gathers_step hline h.knows h.gathers
  knows' := knows_step hline h.knows'
  gathers' := gathers_step hline h.knows' h.gathers'

/-- Templates under whose names different texts stand. -/
def Differ (ts ts' : Templates) (slot : Templates.Slot) : Prop :=
  ts.template slot ≠ ts'.template slot

/-- The comment that a line finishes is the same, unless it uses a template that changes. -/
theorem retold_inserted? {text' : Text} (hline : lines[j]? = some line)
    (h : Together o ts lines j s s') (ht : (step o s j line).inserted? = some text)
    (ht' : (step (o.retemplate ts) s' j line).inserted? = some text') :
    Retold lines (Differ o.templates ts) (.insert (s.anchor?.getD j) text)
      (.insert (s.anchor?.getD j) text') := by
  obtain ⟨d, hd⟩ := completes_of_inserted? hline h.knows h.gathers ht
  obtain ⟨d', hd'⟩ := completes_of_inserted? hline h.knows' h.gathers' ht'
  have hplace : s'.declaring j = s.declaring j := by
    rw [← State.declaring_stripped, ← h.same, State.declaring_stripped]
  rw [hplace] at hd'
  obtain rfl := hd.ends.declares.unique hd'.ends.declares
  by_cases hagree : o.templates.Agree ts d (d.listed (between lines (s.declaring j) (j + 1)))
  · have htext : some text = some text' :=
      hd.text.symm.trans ((complete?_congr hagree).trans hd'.text)
    obtain rfl := Option.some.inj htext
    exact .same _
  · obtain ⟨slot, hslot⟩ := Classical.not_forall.mp hagree
    rw [Classical.not_imp] at hslot
    exact .comment hd.ends hd.run hslot.1 hslot.2

theorem retold_step (hline : lines[j]? = some line) (h : Together o ts lines j s s') :
    List.Forall₂ (Retold lines (Differ o.templates ts)) (step o s j line).edits
      (step (o.retemplate ts) s' j line).edits := by
  have hanchor : s'.anchor? = s.anchor? := by
    rw [← State.anchor?_stripped, ← h.same, State.anchor?_stripped]
  have hdeletion : deletion (o.retemplate ts) j line = deletion o j line := rfl
  have hsome : (step o s j line).inserted?.isSome =
      (step (o.retemplate ts) s' j line).inserted?.isSome := (step_retemplate j line h.same).2
  rw [step_edits, step_edits, hanchor, hdeletion]
  refine List.rel_append (List.forall₂_same.mpr fun e _ => .same e) ?_
  cases ht : (step o s j line).inserted? with
  | none =>
    rw [ht, Option.isSome_none, eq_comm, Option.isSome_eq_false_iff,
      Option.isNone_iff_eq_none] at hsome
    rw [hsome]
    exact .nil
  | some text =>
    rw [ht, Option.isSome_some, eq_comm] at hsome
    obtain ⟨text', ht'⟩ := Option.isSome_iff_exists.mp hsome
    rw [ht']
    exact .cons (retold_inserted? hline h ht ht') .nil

theorem retold_editsFrom {rest : List Text} (hrest : lines.drop j = rest)
    (h : Together o ts lines j s s') :
    List.Forall₂ (Retold lines (Differ o.templates ts)) (editsFrom o s j rest)
      (editsFrom (o.retemplate ts) s' j rest) := by
  induction rest generalizing s s' j with
  | nil => exact .nil
  | cons line rest ih =>
    obtain ⟨hline, hdrop⟩ := getElem?_of_drop hrest
    exact List.rel_append (retold_step hline h) (ih hdrop (together_step hline h))

/-- With other templates a pass makes edits of the same kinds at the same lines in the same order,
and the text of a comment changes only if a template changes that the comment uses. -/
theorem edits_retemplate (o : Options) (ts : Templates) (lines : List Text) :
    List.Forall₂ (Retold lines (Differ o.templates ts)) (edits o lines)
      (edits (o.retemplate ts) lines) := by
  rw [edits_eq_editsFrom, edits_eq_editsFrom]
  exact retold_editsFrom rfl (together_neutral o ts lines)

/-- Each template is there for its own declarations. When one of them changes, a pass makes edits
of the same kinds at the same lines in the same order, and only the comments that use this template
change their texts. -/
theorem edits_put (o : Options) (slot : Templates.Slot) (t : Text) (lines : List Text) :
    List.Forall₂ (Retold lines (· = slot)) (edits o lines)
      (edits (o.retemplate (o.templates.put slot t)) lines) := by
  refine (edits_retemplate o (o.templates.put slot t) lines).imp fun e e' h => h.mono ?_
  intro other hother
  by_contra hne
  exact hother (by simp [Ne.symm hne])

end TripleSlash.Scan
