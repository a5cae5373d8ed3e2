import TripleSlash.Proofs.Document.Breaks
import TripleSlash.Proofs.Document.Retrace

/-! Passes that write all comments anew, one after the other. From the second one on nothing
changes, if no comment stands in the parameter list of a declaration that gets a comment. -/
namespace TripleSlash.Scan

variable {o : Options} {s : State} {i j : Nat} {line : Text} {lines : List Text} {br : LineBreak}
  {l : Line}

/-- Where a line on its own gets no comment, no line break makes it get one. -/
theorem inserted?_neutral {o' : Options} (ho : o.Agree o') (hm : o.mode = .regenerate)
    (hc : isComment line = false) (h : (step o .neutral i line).inserted? = none) :
    (step o' .neutral j line).inserted? = none := by
  cases ha : isAttribute line with
  | true =>
    rw [step_of_attribute hc rfl ha]
    rfl
  | false =>
    cases hd : Declaration.recognize? line with
    | none =>
      rw [step_of_other hc rfl ha hd]
      rfl
    | some d =>
      rw [step_of_declaration hc rfl ha hd] at h ⊢
      cases hop : d.isOpen with
      | false =>
        rw [(onDeclaration_of_whole hop).2] at h ⊢
        exact comment?_eq_none ho (by simp [hm]) h
      | true => exact (onDeclaration_of_open hop).1

theorem owed_neutral : Scan.above o .neutral i [line] = (step o .neutral i line).inserted? := by
  change owed o .neutral i [line] = _
  rw [owed_cons, due_nil, Option.or_none]

theorem written_one {o' : Options} (ho : o.Commenting br) (hagree : o.Agree o')
    (hm : o.mode = .regenerate) (hl : l.Plain) (h : written o .neutral 0 [l] = [l]) :
    written o' .neutral 0 [l] = [l] := by
  cases hc : isComment l.text with
  | true => simp [written, above_of_comment hc, kept, hm, hc, Line.ofText] at h
  | false =>
    rw [written_code hc rfl] at h
    have hnone : Scan.above o .neutral 0 [l.text] = none := by
      cases ha : Scan.above o .neutral 0 [l.text] with
      | none => rfl
      | some text =>
        have hfeed : ∀ line ∈ [l.text], '\n' ∉ line := by simpa using hl.noFeed
        have hblock := ensures_above ho (ensures_block ho) hfeed sound_neutral ha
        have hne := Comment.block_ne_nil hblock
        simp [ha, written, hne] at h
    rw [owed_neutral] at hnone
    have habove : Scan.above o' .neutral 0 [l.text] = none := by
      rw [owed_neutral]
      exact inserted?_neutral hagree hm hc hnone
    rw [written_code hc habove]
    rfl

/-- A pass tells of each comment that stands in the list of a declaration that gets a comment. -/
theorem dropped_of_met {t : State} {p : Comment.Pending} (total : Nat)
    (ht : t ∈ atComments o s i lines) (hl : t.openList = some (.commented p)) :
    .dropped p.declaredAt ∈ (runFrom o (fun _ => false) total s i lines).notices := by
  induction lines generalizing s i with
  | nil => simp [atComments] at ht
  | cons line lines ih =>
    simp only [runFrom, Bool.false_eq_true, if_false, Report.cons, List.mem_append]
    rcases List.mem_append.mp ht with ht | ht
    · left
      cases hc : isComment line with
      | true =>
        obtain rfl : t = s := by simpa [hc] using ht
        simp [step, hc, onComment, hl]
      | false => simp [hc] at ht
    · exact .inr (ih ht)

end TripleSlash.Scan

namespace TripleSlash.Settings

variable {s : Settings} {source : Text}

theorem dropped_of_met {mode : Mode} {t : Scan.State} {p : Comment.Pending}
    (ht : t ∈ s.met mode source) (hl : t.openList = some (.commented p)) :
    .dropped p.declaredAt ∈ (s.pass mode source).notices := by
  have hnotice := Scan.dropped_of_met ((Line.ofText source).map Line.text).length ht hl
  simp only [pass, Scan.run, Scan.runFrom_result]
  exact List.mem_append_left _ hnotice

theorem options_of_ne_auto (h : s.lineEnding ≠ .auto) (mode : Mode) (a b : LineBreak) :
    s.options mode a = s.options mode b := by
  cases hl : s.lineEnding <;> simp_all [options, lineBreak]

theorem lineBreak_of_auto (h : s.lineEnding = .auto) (own : LineBreak) : s.lineBreak own = own := by
  simp [lineBreak, h]

/-- Where written lines have a line break, it makes a further pass end its comments as before. -/
theorem options_rewrite (ht : s.templates = .stock)
    (hb : s.lineEnding ≠ .auto ∨ Line.Alike (Line.ofText source)) :
    (s.rewrite .regenerate source).findSome? Line.ending = none ∨
      s.options .regenerate (Line.firstBreak (s.rewrite .regenerate source)) =
        s.options .regenerate (Line.firstBreak (Line.ofText source)) := by
  by_cases hauto : s.lineEnding = .auto
  · rcases hb with hb | hb
    · exact absurd hauto hb
    · have hfirst := Scan.findSome?_written (s := .neutral) (i := 0)
        (o := s.options .regenerate (Line.firstBreak (Line.ofText source))) ht rfl
        (Line.proper_ofText source) Scan.sound_neutral
        fun l hl => lineBreak_of_auto hauto _ ▸ Line.ending_of_alike hb hl
      rcases hfirst with hnone | hsome
      · exact .inl hnone
      · right
        have hown : Line.firstBreak (s.rewrite .regenerate source) = _ :=
          congrArg (·.getD .lf) hsome
        rw [hown, Option.getD_some, lineBreak_of_auto hauto]
  · exact .inr (options_of_ne_auto hauto _ _ _)

/-- Written lines are written again. -/
theorem rewrite_rewrite (ht : s.templates = .stock)
    (hb : s.lineEnding ≠ .auto ∨ Line.Alike (Line.ofText source))
    (hmet : ∀ t ∈ s.met .regenerate source, ∀ p, t.openList ≠ some (.commented p)) :
    s.rewrite .regenerate (Line.join (s.rewrite .regenerate source)) =
      s.rewrite .regenerate source := by
  have hcommenting : s.templates.Commenting := ht ▸ Templates.stock_commenting
  have hp := Line.proper_ofText source
  have ho : (s.options .regenerate (Line.firstBreak (Line.ofText source))).Commenting _ :=
    commenting_options hcommenting _
  have hagain : Scan.written _ .neutral 0 (s.rewrite .regenerate source) = _ :=
    (Scan.written_written (j := 0) ho rfl hp Scan.sound_neutral Scan.tidy_neutral
      Scan.tidy_neutral hmet (.level (Scan.level_of_none rfl rfl)
        (by simp [Scan.due, Scan.State.waits, Scan.State.anchor?, Scan.State.neutral]))).1
  have hread : Line.ofText (Line.join (s.rewrite .regenerate source)) = _ :=
    ofText_rewrite hcommenting
  change Scan.written (s.options .regenerate (Line.firstBreak (Line.ofText (Line.join _)))) .neutral
    0 (Line.ofText (Line.join _)) = s.rewrite .regenerate source
  rw [hread]
  rcases options_rewrite ht hb with hnone | hoptions
  · -- a single line without a break, which gets no comment in either pass
    have hproper : Line.Proper (s.rewrite .regenerate source) :=
      Scan.proper_written ho hp Scan.sound_neutral
    rcases Line.eq_of_no_break hproper hnone with hnil | ⟨l, hl, hone⟩
    · rw [hnil]
      rfl
    · change _ = s.rewrite .regenerate source at hagain
      rw [hone] at hagain ⊢
      exact Scan.written_one ho ⟨rfl, rfl⟩ rfl hl hagain
  · rw [hoptions]
    exact hagain

/-- A method below an attribute, with an old comment and parameters on two lines. -/
def wrapped : Text :=
  "/// Old.\r\n[Obsolete]\r\npublic void Run(int first,\r\n    string second)\r\n"

/-- Where no comment stands in a parameter list, the text of a pass that writes all comments anew is
left as it is by a further one, and a pass that leaves comments alone finds nothing to do in it. -/
theorem regenerate_settles (ht : s.templates = .stock)
    (hb : s.lineEnding ≠ .auto ∨ Line.Alike (Line.ofText source))
    (hmet : ∀ t ∈ s.met .regenerate source, t.openList = none) :
    ∃ t, (s.pass .regenerate source).text = .ok t ∧ (s.pass .regenerate t).text = .ok t ∧
      (s.pass .fillMissing t).edits = [] := by
  have hlists : ∀ t ∈ s.met .regenerate source, ∀ p, t.openList ≠ some (.commented p) := by
    intro t hm p hl
    simp [hmet t hm] at hl
  refine ⟨_, pass_text, ?_, ?_⟩
  · rw [pass_text, rewrite_rewrite ht hb hlists]
  · exact edits_rewrite (ht ▸ Templates.stock_commenting) fun _ => hlists

theorem regenerate_settles_wrapped :
    ∃ t, (default.pass .regenerate wrapped).text = .ok t ∧
      (default.pass .regenerate t).text = .ok t ∧ (default.pass .fillMissing t).edits = [] :=
  regenerate_settles rfl (.inr ⟨.crlf, by decide +kernel⟩) (by decide +kernel)

/-- Under the default settings a pass that writes all comments anew can be run again without effect,
unless it told of a comment inside a parameter list. -/
theorem regenerate_again (hb : Line.Alike (Line.ofText source))
    (hdropped : ∀ n, .dropped n ∉ (default.pass .regenerate source).notices) :
    ∃ t, (default.pass .regenerate source).text = .ok t ∧
      (default.pass .regenerate t).text = .ok t := by
  have hlists : ∀ t ∈ default.met .regenerate source, ∀ p, t.openList ≠ some (.commented p) := by
    intro t hm p hl
    exact hdropped _ (dropped_of_met hm hl)
  refine ⟨_, pass_text, ?_⟩
  rw [pass_text, rewrite_rewrite rfl (.inr hb) hlists]

theorem regenerate_again_wrapped :
    (∀ n, .dropped n ∉ (default.pass .regenerate wrapped).notices) ∧
      ∃ t, (default.pass .regenerate wrapped).text = .ok t ∧
        (default.pass .regenerate t).text = .ok t := by
  have hdropped : ∀ n, .dropped n ∉ (default.pass .regenerate wrapped).notices := by
    have hnotices : (default.pass .regenerate wrapped).notices = [.complete .regenerate 4 2] := by
      decide +kernel
    simp [hnotices]
  exact ⟨hdropped, regenerate_again ⟨.crlf, by decide +kernel⟩ hdropped⟩

/-- A parameter list with a comment in it. -/
def interrupted : Text := "public void Run(int first,\n/// Old.\n    string second)\n"

/-- A comment inside a parameter list hides the list from the pass that takes the comment out, and
the next pass writes a comment for the declaration. -/
theorem regenerate_interrupted : Line.Alike (Line.ofText interrupted) ∧ '\r' ∉ interrupted ∧
    ∃ t t', (default.pass .regenerate interrupted).text = .ok t ∧
      (default.pass .regenerate t).text = .ok t' ∧ t' ≠ t := by
  refine ⟨⟨.lf, by decide +kernel⟩, by decide +kernel, _, _, pass_text, pass_text, ?_⟩
  decide +kernel

end TripleSlash.Settings
