import TripleSlash.Proofs.Declaration.Captured
import TripleSlash.Proofs.Scan.Foresight

/-! Open lists, and two passes of which one is still inside a list that the other has left. -/
namespace TripleSlash.Scan

variable {o o' : Options} {s s' : State} {i j : Nat} {line : Text} {a : OpenList} {d : Declaration}

namespace OpenList

/-- Depth inside the list. -/
def depth : OpenList → Nat
  | commented p => p.depth
  | bare depth => depth

/-- Whether the declaration of the list gets no comment. -/
def isBare : OpenList → Bool
  | commented _ => false
  | bare _ => true

theorem eq_bare (h : a.isBare = true) : a = .bare a.depth := by
  cases a with
  | commented p => simp [isBare] at h
  | bare depth => rfl

end OpenList

theorem finish?_of_closes {ts : Templates} {p : Comment.Pending}
    (h : Parens.closes p.depth line = true) :
    p.finish? ts line = some (p.accept ts line).assembled := by
  simp [Comment.Pending.finish?, h]

theorem finish?_of_not_closes {ts : Templates} {p : Comment.Pending}
    (h : Parens.closes p.depth line = false) : p.finish? ts line = none := by
  simp [Comment.Pending.finish?, h]

/-- With its last line a list is over, and only then its comment is found. -/
theorem step_of_closes (hc : isComment line = false) (hl : s.openList = some a)
    (h : Parens.closes a.depth line = true) :
    (step o s i line).state = { s with openList := none } ∧
      ((step o s i line).inserted? = none ↔ a.isBare = true) := by
  cases a with
  | commented p =>
    have hf : p.finish? o.templates line = _ := finish?_of_closes h
    simp [step, hc, hl, onListLine, hf, Step.inserted?, OpenList.isBare]
  | bare depth =>
    simp only [OpenList.depth, Parens.closes] at h
    cases hs : Parens.scan depth line with
    | unclosed deeper => simp [hs] at h
    | closed before rest =>
      simp [step, hc, hl, onListLine, hs, Step.inserted?, OpenList.isBare]

/-- A line that does not close its list only changes the depth. -/
theorem step_of_not_closes (hc : isComment line = false) (hl : s.openList = some a)
    (h : Parens.closes a.depth line = false) :
    (step o s i line).inserted? = none ∧
      ∃ b, (step o s i line).state = { s with openList := some b } ∧
        b.depth = Parens.depthAfter a.depth line ∧ b.isBare = a.isBare := by
  cases a with
  | commented p =>
    have hf : p.finish? o.templates line = _ := finish?_of_not_closes h
    simp [step, hc, hl, onListLine, hf, Step.inserted?, OpenList.isBare, OpenList.depth,
      Comment.Pending.accept]
  | bare depth =>
    simp only [OpenList.depth, Parens.closes] at h
    cases hs : Parens.scan depth line with
    | unclosed deeper =>
      simp [step, hc, hl, onListLine, hs, Step.inserted?, OpenList.isBare, OpenList.depth,
        Parens.depthAfter]
    | closed before rest => simp [hs] at h

/-- A comment stands directly above. -/
def State.documented : State := { State.neutral with afterComment := true }

theorem step_of_comment (hc : isComment line = true) :
    (step o s i line).state = .documented := by
  simp [step, hc, onComment, State.documented]

theorem after_comments {lines : List Text} (hne : lines ≠ [])
    (hc : ∀ line ∈ lines, isComment line = true) : after o s i lines = .documented := by
  induction lines generalizing s i with
  | nil => exact absurd rfl hne
  | cons line lines ih =>
    rw [after, step_of_comment (hc line (by simp))]
    cases lines with
    | nil => rfl
    | cons line' lines => exact ih (by simp) fun x hx => hc x (by simp [hx])

theorem step_of_attribute (hc : isComment line = false) (hl : s.openList = none)
    (ha : isAttribute line = true) : step o s i line = onAttribute s i := by
  simp [step, hc, hl, ha]

theorem step_of_other (hc : isComment line = false) (hl : s.openList = none)
    (ha : isAttribute line = false) (hd : Declaration.recognize? line = none) :
    step o s i line = ⟨.neutral, [], []⟩ := by
  simp [step, hc, hl, ha, hd]

theorem step_of_declaration (hc : isComment line = false) (hl : s.openList = none)
    (ha : isAttribute line = false) (hd : Declaration.recognize? line = some d) :
    step o s i line = onDeclaration o s i d := by
  simp [step, hc, hl, ha, hd]

/-- A declaration with all its parameters. -/
theorem onDeclaration_of_whole (hop : d.isOpen = false) :
    (onDeclaration o s i d).state = .neutral ∧
      (onDeclaration o s i d).inserted? = comment? o s d := by
  cases ht : comment? o s d <;> simp [onDeclaration, ht, hop, Step.inserted?]

/-- A declaration whose parameters go on below. -/
theorem onDeclaration_of_open (hop : d.isOpen = true) :
    (onDeclaration o s i d).inserted? = none ∧
      ∃ b, (onDeclaration o s i d).state = { State.neutral with openList := some b } ∧
        b.depth = Parens.depthAfter Parens.opened d.rawParameters ∧
        b.isBare = (comment? o s d).isNone := by
  cases ht : comment? o s d <;>
    simp [onDeclaration, ht, hop, Step.inserted?, OpenList.isBare, OpenList.depth,
      Comment.Pending.start]

/-- The list that a line opens is less deep than any list that the line stands in. -/
theorem opened_lt {n : Nat} (hd : Declaration.recognize? line = some d) (hop : d.isOpen = true)
    (hn : 0 < n) : Parens.closes n line = false ∧
      Parens.depthAfter Parens.opened d.rawParameters < Parens.depthAfter n line := by
  obtain ⟨x, rfl, ho, hc, hopen⟩ := Declaration.open_parameters hd hop
  obtain ⟨hcloses, hdepth⟩ := Parens.closes_append (d := n) (t := '(' :: d.rawParameters) ho hc
  have hlt := Parens.depthAfter_lt (e := n + 1) (by simpa [Parens.opened] using hn) hopen
  rw [hcloses, hdepth]
  revert hlt
  unfold Parens.closes Parens.depthAfter
  rw [Parens.scan_open]
  cases Parens.scan (n + 1) d.rawParameters <;> simp [Parens.Result.cons]

theorem opened_pos (hd : Declaration.recognize? line = some d) (hop : d.isOpen = true) :
    0 < Parens.depthAfter Parens.opened d.rawParameters := by
  obtain ⟨x, -, -, -, hopen⟩ := Declaration.open_parameters hd hop
  exact Parens.depthAfter_pos (by decide) hopen

/-- A list behind a line is the one in front of it, or one that the line opens. -/
theorem openList_step {b : OpenList} (hc : isComment line = false)
    (hb : (step o s i line).state.openList = some b) :
    (∃ a, s.openList = some a ∧ Parens.closes a.depth line = false ∧
        b.depth = Parens.depthAfter a.depth line) ∨
      ∃ d, Declaration.recognize? line = some d ∧ d.isOpen = true ∧
        b.depth = Parens.depthAfter Parens.opened d.rawParameters := by
  cases hl : s.openList with
  | some a =>
    left
    cases hclose : Parens.closes a.depth line with
    | true => simp [(step_of_closes hc hl hclose).1] at hb
    | false =>
      obtain ⟨-, b', hs, hdepth, -⟩ := step_of_not_closes (o := o) (i := i) hc hl hclose
      obtain rfl : b' = b := by simpa [hs] using hb
      exact ⟨a, rfl, hclose, hdepth⟩
  | none =>
    right
    cases ha : isAttribute line with
    | true => simp [step_of_attribute hc hl ha, onAttribute, hl] at hb
    | false =>
      cases hd : Declaration.recognize? line with
      | none => simp [step_of_other hc hl ha hd, State.neutral] at hb
      | some d =>
        rw [step_of_declaration hc hl ha hd] at hb
        cases hop : d.isOpen with
        | false => simp [(onDeclaration_of_whole hop).1, State.neutral] at hb
        | true =>
          obtain ⟨-, b', hs, hdepth, -⟩ := onDeclaration_of_open (o := o) (s := s) (i := i) hop
          obtain rfl : b' = b := by simpa [hs] using hb
          exact ⟨d, rfl, hop, hdepth⟩

theorem depth_pos_step (hc : isComment line = false) (h : ∀ a, s.openList = some a → 0 < a.depth) :
    ∀ b, (step o s i line).state.openList = some b → 0 < b.depth := by
  intro b hb
  rcases openList_step hc hb with ⟨a, ha, hclose, hdepth⟩ | ⟨d, hd, hop, hdepth⟩
  · exact hdepth ▸ Parens.depthAfter_pos (h a ha) hclose
  · exact hdepth ▸ opened_pos hd hop

theorem not_waits_of_closed (ht : s.Tidy) (hl : s.openList = some a) :
    ({ s with openList := none } : State).waits = false := by
  have hattributes := ht (by simp [hl])
  simp [State.waits, State.anchor?, hattributes]

/-- Inside a list no new comment begins. -/
theorem above_of_list {lines : List Text} (ht : s.Tidy) (hc : isComment line = false)
    (hl : s.openList = some a) : above o s i (line :: lines) = none := by
  unfold above
  split
  · rfl
  next hw =>
    have hbare : a.isBare = true := by
      cases a with
      | commented p => simp [State.waits, State.anchor?, hl] at hw
      | bare depth => rfl
    rw [owed_cons]
    cases hclose : Parens.closes a.depth line with
    | true =>
      obtain ⟨hs, hins⟩ := step_of_closes (o := o) (i := i) hc hl hclose
      rw [hins.mpr hbare, hs, due_of_not_waits (not_waits_of_closed ht hl)]
      rfl
    | false =>
      obtain ⟨hins, b, hs, -, hb⟩ := step_of_not_closes (o := o) (i := i) hc hl hclose
      have hnext : (step o s i line).state.waits = false := by
        rw [hs, OpenList.eq_bare (hb.trans hbare)]
        rfl
      rw [hins, due_of_not_waits hnext]
      rfl

theorem openList_of_above {lines : List Text} {text : Text} (ht : s.Tidy)
    (hc : isComment line = false) (h : above o s i (line :: lines) = some text) :
    s.openList = none := by
  cases hl : s.openList with
  | none => rfl
  | some a => simp [above_of_list ht hc hl] at h

/-- A later pass is still inside a list without comment when the earlier one has left the list,
and it is deeper than the list that the earlier pass may have met since. -/
def Behind (s s' : State) : Prop :=
  ∃ n, s'.openList = some (.bare n) ∧ 0 < n ∧ ∀ a, s.openList = some a → a.depth < n

theorem behind_of_comment (hc : isComment line = true) (h : Behind s s') :
    Behind (step o s i line).state s' := by
  obtain ⟨n, hn, hpos, -⟩ := h
  refine ⟨n, hn, hpos, ?_⟩
  intro a ha
  simp [step_of_comment hc, State.documented, State.neutral] at ha

/-- Where the later pass leaves its list, the earlier one is in none. -/
theorem behind_step (hc : isComment line = false) (h : Behind s s') :
    (step o' s' j line).inserted? = none ∧
      (Behind (step o s i line).state (step o' s' j line).state ∨
        (step o s i line).state.openList = none ∧ (step o' s' j line).state.openList = none) := by
  obtain ⟨n, hn, hpos, hdeep⟩ := h
  -- the list of the earlier pass behind the line
  have hnext : ∀ b, (step o s i line).state.openList = some b →
      Parens.closes n line = false ∧ b.depth < Parens.depthAfter n line := by
    intro b hb
    rcases openList_step hc hb with ⟨a, ha, hclose, hdepth⟩ | ⟨d, hd, hop, hdepth⟩
    · exact hdepth ▸ Parens.depthAfter_lt (hdeep a ha) hclose
    · exact hdepth ▸ opened_lt hd hop hpos
  cases hclose : Parens.closes n line with
  | true =>
    obtain ⟨hstate, hins⟩ := step_of_closes (o := o') (i := j) hc hn hclose
    refine ⟨hins.mpr rfl, .inr ⟨?_, by rw [hstate]⟩⟩
    cases hb : (step o s i line).state.openList with
    | none => rfl
    | some b => simp [(hnext b hb).1] at hclose
  | false =>
    obtain ⟨hins, b, hstate, hdepth, hbare⟩ := step_of_not_closes (o := o') (i := j) hc hn hclose
    refine ⟨hins, .inl ⟨b.depth, ?_, ?_, fun a ha => hdepth ▸ (hnext a ha).2⟩⟩
    · rw [hstate]
      exact congrArg some (OpenList.eq_bare hbare)
    · exact hdepth ▸ Parens.depthAfter_pos hpos hclose

end TripleSlash.Scan
