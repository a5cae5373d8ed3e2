import TripleSlash.Proofs.Document.Blocks
import TripleSlash.Proofs.Scan.Lists

/-! A pass that leaves comments alone, over lines that an earlier pass wrote. The two passes stand
in the same lists, and above each declaration that gets a comment the later pass finds it. -/
namespace TripleSlash.Scan

variable {o o' : Options} {s s' : State} {i j : Nat} {line : Text} {lines : List Text}
  {d : Declaration} {above : Option Text}

/-- Options with the same comments for the same declarations. -/
structure Options.Agree (o o' : Options) : Prop where
  templates : o'.templates = o.templates
  documented : o'.documented = o.documented

theorem render?_eq_none {ts : Templates} {x y : Text} (h : Comment.render? ts x d = none) :
    Comment.render? ts y d = none := by
  have hts : Comment.template? ts d.kind = none := by
    simpa [Comment.render?, Comment.body?] using h
  simp [Comment.render?, Comment.body?, hts]

theorem comment?_of_afterComment (hm : o.mode = .fillMissing) (h : s.afterComment = true) :
    comment? o s d = none := by
  simp [comment?, hm, h]

theorem comment?_eq_none (ho : o.Agree o')
    (hafter : o.mode = .fillMissing → s.afterComment = true →
      o'.mode = .fillMissing ∧ s'.afterComment = true)
    (h : comment? o s d = none) : comment? o' s' d = none := by
  unfold comment? at *
  rw [ho.templates, ho.documented]
  by_cases hskip : o.mode = .fillMissing ∧ s.afterComment = true
  · simp [hafter hskip.1 hskip.2]
  · simp only [hskip, if_false] at h
    split
    · rfl
    · split at h
      next ha => simp [ha, render?_eq_none h]
      next ha => simp [ha]

/-- Where two passes stand when the earlier one will put `above` in front of the lines to come. -/
inductive Echo (o : Options) (above : Option Text) (s s' : State) : Prop where
  /-- Both are in a list of the same depth. -/
  | list {a b : OpenList} (ha : s.openList = some a) (hb : s'.openList = some b)
      (hd : b.depth = a.depth) (hpos : 0 < a.depth)
      (hbare : above ≠ none ∨ a.isBare = true → b.isBare = true)
      (hafter : o.mode = .fillMissing → s.afterComment = true → s'.afterComment = true)
  /-- Both are in no list. -/
  | free (ha : s.openList = none) (hb : s'.openList = none)
      (habove : above ≠ none → s'.afterComment = true)
      (hafter : o.mode = .fillMissing → s.afterComment = true → s'.afterComment = true)
  /-- The earlier one took out a comment that stood in a list. -/
  | behind (hm : o.mode = .regenerate) (h : Behind s s') (habove : above = none)

theorem echo_declaration (ho : o.Agree o') (hm : o'.mode = .fillMissing)
    (hd : Declaration.recognize? line = some d)
    (habove : (onDeclaration o s i d).inserted?.or above ≠ none → s'.afterComment = true)
    (hwaits : (onDeclaration o s i d).state.waits = false → above = none)
    (hafter : o.mode = .fillMissing → s.afterComment = true → s'.afterComment = true) :
    (onDeclaration o' s' j d).inserted? = none ∧
      Echo o above (onDeclaration o s i d).state (onDeclaration o' s' j d).state := by
  cases hop : d.isOpen with
  | false =>
    obtain ⟨hs, hins⟩ := onDeclaration_of_whole (o := o) (s := s) (i := i) hop
    obtain ⟨hs', hins'⟩ := onDeclaration_of_whole (o := o') (s := s') (i := j) hop
    have hnone : above = none := hwaits (by rw [hs]; rfl)
    refine ⟨?_, ?_⟩
    · rw [hins']
      cases ht : comment? o s d with
      | none => exact comment?_eq_none ho (fun h h' => ⟨hm, hafter h h'⟩) ht
      | some text => exact comment?_of_afterComment hm (habove (by simp [hins, ht]))
    · rw [hs, hs', hnone]
      exact .free rfl rfl (by simp) (by simp [State.neutral])
  | true =>
    obtain ⟨hins, b, hs, hdepth, hbare⟩ := onDeclaration_of_open (o := o) (s := s) (i := i) hop
    obtain ⟨hins', b', hs', hdepth', hbare'⟩ :=
      onDeclaration_of_open (o := o') (s := s') (i := j) hop
    refine ⟨hins', .list (congrArg State.openList hs) (congrArg State.openList hs') ?_ ?_ ?_ ?_⟩
    · rw [hdepth, hdepth']
    · exact hdepth ▸ opened_pos hd hop
    · rw [hbare, hbare', Option.isNone_iff_eq_none, Option.isNone_iff_eq_none]
      rintro (hwritten | ht)
      · exact comment?_of_afterComment hm (habove (by simpa [hins] using hwritten))
      · exact comment?_eq_none ho (fun h h' => ⟨hm, hafter h h'⟩) ht
    · simp [hs, State.neutral]

/-- A line of a list, which both passes close or leave open. -/
theorem echo_list {a b : OpenList} (ht : s.Tidy) (hc : isComment line = false)
    (ha : s.openList = some a) (hb : s'.openList = some b) (hd : b.depth = a.depth)
    (hpos : 0 < a.depth)
    (hbare : owed o s i (line :: lines) ≠ none ∨ a.isBare = true → b.isBare = true)
    (hafter : o.mode = .fillMissing → s.afterComment = true → s'.afterComment = true) :
    (step o' s' j line).inserted? = none ∧
      Echo o (due o (step o s i line).state (i + 1) lines) (step o s i line).state
        (step o' s' j line).state := by
  rw [owed_cons] at hbare
  cases hclose : Parens.closes a.depth line with
  | true =>
    obtain ⟨hs, hins⟩ := step_of_closes (o := o) (i := i) hc ha hclose
    obtain ⟨hs', hins'⟩ := step_of_closes (o := o') (i := j) hc hb (hd ▸ hclose)
    have hb' : b.isBare = true := by
      apply hbare
      cases hab : a.isBare with
      | true => exact .inr rfl
      | false =>
        have hfound : (step o s i line).inserted? ≠ none := by simp [hins, hab]
        exact .inl (by simp [hfound])
    refine ⟨hins'.mpr hb', ?_⟩
    rw [hs, hs', due_of_not_waits (not_waits_of_closed ht ha)]
    exact .free rfl rfl (by simp) hafter
  | false =>
    obtain ⟨hins, c, hs, hdepth, hcbare⟩ := step_of_not_closes (o := o) (i := i) hc ha hclose
    obtain ⟨hins', c', hs', hdepth', hcbare'⟩ :=
      step_of_not_closes (o := o') (i := j) hc hb (hd ▸ hclose)
    refine ⟨hins', .list (congrArg State.openList hs) (congrArg State.openList hs') ?_ ?_ ?_ ?_⟩
    · rw [hdepth, hdepth', hd]
    · exact hdepth ▸ Parens.depthAfter_pos hpos hclose
    · rw [hcbare, hcbare']
      rw [hins, Option.none_or] at hbare
      exact hbare
    · rw [hs, hs']
      exact hafter

/-- A line of code, behind the comment that goes above it. -/
theorem echo_step (ho : o.Agree o') (hm : o'.mode = .fillMissing) (ht : s.Tidy)
    (hc : isComment line = false) (h : Echo o (owed o s i (line :: lines)) s s') :
    (step o' s' j line).inserted? = none ∧
      Echo o (due o (step o s i line).state (i + 1) lines) (step o s i line).state
        (step o' s' j line).state := by
  cases h with
  | list ha hb hd hpos hbare hafter => exact echo_list ht hc ha hb hd hpos hbare hafter
  | free ha hb habove hafter =>
    rw [owed_cons] at habove
    cases hattr : isAttribute line with
    | true =>
      rw [step_of_attribute hc ha hattr] at habove ⊢
      rw [step_of_attribute hc hb hattr]
      exact ⟨rfl, .free ha hb habove hafter⟩
    | false =>
      cases hd : Declaration.recognize? line with
      | none =>
        rw [step_of_other hc ha hattr hd, step_of_other hc hb hattr hd, due_of_not_waits rfl]
        exact ⟨rfl, .free rfl rfl (by simp) (by simp [State.neutral])⟩
      | some d =>
        rw [step_of_declaration hc ha hattr hd] at habove ⊢
        rw [step_of_declaration hc hb hattr hd]
        exact echo_declaration ho hm hd habove due_of_not_waits hafter
  | behind hmode hbehind habove =>
    rw [owed_cons, Option.or_eq_none_iff] at habove
    obtain ⟨hins, hnext⟩ := @behind_step o o' s s' i j line hc hbehind
    refine ⟨hins, ?_⟩
    rcases hnext with hnext | ⟨ha, hb⟩
    · exact .behind hmode hnext habove.2
    · exact .free ha hb (by simp [habove.2]) (by simp [hmode])

/-- The earlier pass takes out a comment, and the later one does not meet it. -/
theorem echo_skip (hm : o.mode = .regenerate) (hc : isComment line = true)
    (hl : ∀ p, s.openList ≠ some (.commented p)) (h : Echo o above s s') :
    Echo o none (step o s i line).state s' := by
  have hs := step_of_comment (o := o) (s := s) (i := i) hc
  cases h with
  | @list a b ha hb hd hpos hbare hafter =>
    have habare : a.isBare = true := by
      cases a with
      | commented p => exact absurd ha (hl p)
      | bare depth => rfl
    refine .behind hm ⟨b.depth, ?_, ?_, ?_⟩ rfl
    · rw [hb]
      exact congrArg some (OpenList.eq_bare (hbare (.inr habare)))
    · omega
    · simp [hs, State.documented, State.neutral]
  | free ha hb habove hafter =>
    exact .free (by rw [hs]; rfl) hb (by simp) (by simp [hm])
  | behind hmode h habove => exact .behind hm (behind_of_comment hc h) rfl

theorem edits_eq_nil (hm : o.mode = .fillMissing) (h : (step o s i line).inserted? = none) :
    (step o s i line).edits = [] := by
  simp [step_edits, h, deletion, hm]

theorem editsFrom_comments (hm : o.mode = .fillMissing)
    (hc : ∀ line ∈ lines, isComment line = true) : editsFrom o s i lines = [] := by
  induction lines generalizing s i with
  | nil => rfl
  | cons line lines ih =>
    rw [editsFrom, edits_eq_nil hm (inserted?_of_comment (hc line (by simp)))]
    exact ih fun x hx => hc x (by simp [hx])

variable {br : LineBreak} {doc : List Line} {l : Line}

/-- The comment above a line of code is passed over. -/
theorem editsFrom_above (ho : o.Commenting br) (hm : o'.mode = .fillMissing)
    (hp : Line.Proper (l :: doc)) (hs : s.Sound Comment.Block br) (ht : s.Tidy)
    (hc : isComment l.text = false) (h : Echo o (due o s i ((l :: doc).map Line.text)) s s')
    (hbelow : ∀ t k, Echo o (owed o s i ((l :: doc).map Line.text)) s t →
      editsFrom o' t k lines = []) :
    editsFrom o' s' j ((Line.ofText ((Scan.above o s i ((l :: doc).map Line.text)).getD [])).map
      Line.text ++ lines) = [] := by
  have howed : (due o s i ((l :: doc).map Line.text)).or _ = _ := due_or_above
  cases habove : Scan.above o s i ((l :: doc).map Line.text) with
  | none =>
    rw [habove, Option.or_none] at howed
    exact hbelow s' j (howed ▸ h)
  | some text =>
    have hblock := ensures_above ho (ensures_block ho) (noFeed_of_proper hp) hs habove
    have hcomments : ∀ line ∈ (Line.ofText text).map Line.text, isComment line = true := by
      intro line hline
      obtain ⟨l', hl', rfl⟩ := List.mem_map.mp hline
      exact (Comment.block_lines hblock hl').1
    have hne : (Line.ofText text).map Line.text ≠ [] := by
      simpa using Comment.block_ne_nil hblock
    rw [Option.getD_some, editsFrom_append, editsFrom_comments hm hcomments,
      after_comments hne hcomments]
    exact hbelow _ _ (.free (openList_of_above ht hc habove) rfl (fun _ => rfl) fun _ _ => rfl)

/-- Over written lines a pass that leaves comments alone finds nothing to do. -/
theorem editsFrom_written (ho : o.Commenting br) (hagree : o.Agree o') (hm : o'.mode = .fillMissing)
    (hp : Line.Proper doc) (hs : s.Sound Comment.Block br) (ht : s.Tidy)
    (hmet : o.mode = .regenerate → ∀ t ∈ atComments o s i (doc.map Line.text),
      ∀ p, t.openList ≠ some (.commented p))
    (h : Echo o (due o s i (doc.map Line.text)) s s') :
    editsFrom o' s' j ((written o s i doc).map Line.text) = [] := by
  induction doc generalizing s s' i j with
  | nil => rfl
  | cons l doc ih =>
    have hrest := fun s' j => @ih (step o s i l.text).state s' (i + 1) j hp.2.2
      (sound_step ho (ensures_block ho) hp.1.noFeed hs) (tidy_step ht)
      fun hr t hmem => hmet hr t (by simp [atComments, hmem])
    rw [written, List.append_assoc, List.map_append]
    cases hc : isComment l.text with
    | true =>
      have hdue : due o (step o s i l.text).state (i + 1) (doc.map Line.text) = none :=
        due_of_not_waits (waits_of_comment hc)
      rw [List.map_cons, above_of_comment hc]
      cases hmode : o.mode with
      | regenerate =>
        have hlist := hmet hmode s (by simp [atComments, hc])
        have hkept : kept o l = [] := by simp [kept, hmode, hc]
        rw [hkept]
        exact hrest s' j (hdue ▸ echo_skip hmode hc hlist h)
      | fillMissing =>
        have hkept : kept o l = [l] := by simp [kept, hmode]
        have hboth : Echo o none (step o s i l.text).state (step o' s' j l.text).state := by
          rw [step_of_comment hc, step_of_comment hc]
          exact .free rfl rfl (by simp) fun _ h => h
        rw [hkept]
        change (step o' s' j l.text).edits ++ _ = []
        rw [edits_eq_nil hm (inserted?_of_comment hc)]
        exact hrest _ _ (hdue ▸ hboth)
    | false =>
      have hkept : kept o l = [l] := by simp [kept, hc]
      rw [hkept]
      apply editsFrom_above ho hm hp hs ht hc h
      intro t k hecho
      obtain ⟨hins, hnext⟩ := echo_step (j := k) hagree hm ht hc hecho
      change (step o' t k l.text).edits ++ _ = []
      rw [edits_eq_nil hm hins]
      exact hrest _ _ hnext

end TripleSlash.Scan

namespace TripleSlash.Settings

variable {s : Settings} {mode : Mode} {source : Text}

theorem pass_text_of_no_edits (h : (s.pass mode source).edits = []) :
    (s.pass mode source).text = .ok source := by
  change Line.apply (Line.ofText source) (s.pass mode source).edits = _
  rw [h, Line.apply_of_sorted .nil]
  simp [Line.applyFrom, Line.join_ofText]

/-- A pass that leaves comments alone finds nothing to do in a text that a pass has made. -/
theorem edits_rewrite (h : s.templates.Commenting)
    (hmet : mode = .regenerate →
      ∀ t ∈ s.met mode source, ∀ p, t.openList ≠ some (.commented p)) :
    (s.pass .fillMissing (Line.join (s.rewrite mode source))).edits = [] := by
  refine (Scan.edits_eq_editsFrom _ _).trans ?_
  rw [ofText_rewrite h]
  exact Scan.editsFrom_written (commenting_options h _) ⟨rfl, rfl⟩ rfl
    (Line.proper_ofText source) Scan.sound_neutral Scan.tidy_neutral hmet
    (.free rfl rfl (by simp [Scan.due, Scan.State.waits, Scan.State.anchor?, Scan.State.neutral])
      (by simp [Scan.State.neutral]))

/-- A second pass that leaves comments alone finds nothing to do. -/
theorem fillMissing_again (h : s.templates.Commenting) (source : Text) :
    ∃ t, (s.pass .fillMissing source).text = .ok t ∧ (s.pass .fillMissing t).edits = [] ∧
      (s.pass .fillMissing t).text = .ok t := by
  have hedits : (s.pass .fillMissing (Line.join (s.rewrite .fillMissing source))).edits = [] :=
    edits_rewrite h (by simp)
  exact ⟨_, pass_text, hedits, pass_text_of_no_edits hedits⟩

theorem fillMissing_again_mixed :
    ∃ t, (default.pass .fillMissing mixed).text = .ok t ∧
      (default.pass .fillMissing t).edits = [] ∧ (default.pass .fillMissing t).text = .ok t :=
  fillMissing_again Templates.stock_commenting mixed

end TripleSlash.Settings
