import TripleSlash.Proofs.Document.Quiet

/-! A pass that writes all comments anew, over lines that an earlier such pass wrote. It takes the
comments of the earlier pass out and writes the same ones, as it finds the same declarations in the
same lists. -/
namespace TripleSlash.Scan

variable {o : Options} {s s' : State} {i j : Nat} {line : Text} {lines : List Text}
  {above : Option Text}

/-- A list without the lines that it remembers. -/
def OpenList.unplaced : OpenList → OpenList
  | .commented p => .commented { p with insertAt := 0, declaredAt := 0 }
  | .bare depth => .bare depth

/-- What a state knows of an open list. -/
def State.unplaced (s : State) : State := ⟨false, none, s.openList.map OpenList.unplaced⟩

theorem openList_unplaced : s.unplaced.openList = s.openList.map OpenList.unplaced := rfl

theorem comment?_unplaced (hm : o.mode = .regenerate) (d : Declaration) :
    comment? o s.unplaced d = comment? o s d := by
  simp [comment?, hm]

/-- Where all comments are written anew, only the open list of a state matters. -/
theorem step_unplaced (hm : o.mode = .regenerate) (ht : s.Tidy) (hc : isComment line = false) :
    (step o s i line).inserted? = (step o s.unplaced 0 line).inserted? ∧
      (step o s i line).state.unplaced = (step o s.unplaced 0 line).state.unplaced ∧
      (step o s i line).state.waits = (step o s.unplaced 0 line).state.waits := by
  obtain ⟨afterComment, attributesAt, openList⟩ := s
  cases openList with
  | some a =>
    obtain rfl : attributesAt = none := ht rfl
    cases a with
    | commented p =>
      cases hclose : Parens.closes p.depth line <;>
        simp [step, hc, onListLine, State.unplaced, OpenList.unplaced, Comment.Pending.finish?,
          hclose, Step.inserted?, State.waits, State.anchor?, Comment.Pending.accept,
          Comment.Pending.assembled]
    | bare depth =>
      cases hs : Parens.scan depth line <;>
        simp [step, hc, onListLine, State.unplaced, OpenList.unplaced, hs, Step.inserted?,
          State.waits, State.anchor?]
  | none =>
    cases ha : isAttribute line with
    | true =>
      simp [step, hc, ha, onAttribute, State.unplaced, Step.inserted?, State.waits, State.anchor?]
    | false =>
      cases hd : Declaration.recognize? line with
      | none => simp [step, hc, ha, hd, State.unplaced, Step.inserted?]
      | some d =>
        have hcomment := comment?_unplaced (s := ⟨afterComment, attributesAt, none⟩) hm d
        cases ht : comment? o ⟨afterComment, attributesAt, none⟩ d <;> cases hop : d.isOpen <;>
          simp_all [step, onDeclaration, State.unplaced, OpenList.unplaced, Step.inserted?,
            State.waits, State.anchor?, Comment.Pending.start]

/-- Both passes are in the same list or in none. -/
structure Level (s s' : State) : Prop where
  same : s'.unplaced = s.unplaced
  pos : ∀ a, s.openList = some a → 0 < a.depth

theorem level_of_none (h : s.openList = none) (h' : s'.openList = none) : Level s s' where
  same := by simp [State.unplaced, h, h']
  pos := by simp [h]

theorem openList_of_level (h : Level s s') (hl : s.openList = none) : s'.openList = none := by
  have hlist := congrArg State.openList h.same
  simpa [openList_unplaced, hl] using hlist

theorem bare_of_level {n : Nat} (h : Level s s') (hl : s.openList = some (.bare n)) :
    s'.openList = some (.bare n) := by
  have hlist := congrArg State.openList h.same
  rw [openList_unplaced, openList_unplaced, hl] at hlist
  obtain ⟨b, hb, hdepth⟩ := Option.map_eq_some_iff.mp hlist
  cases b with
  | commented p => simp [OpenList.unplaced] at hdepth
  | bare m =>
    obtain rfl : m = n := by simpa [OpenList.unplaced] using hdepth
    exact hb

/-- Where two passes stand when the earlier one will put `above` in front of lines already read. -/
inductive Retrace (above : Option Text) (s s' : State) : Prop where
  /-- The later pass has the place for `above` in mind. -/
  | level (h : Level s s') (habove : above ≠ none → s'.waits = true)
  /-- The earlier one took out a comment that stood in a list. -/
  | behind (h : Behind s s') (habove : above = none)

theorem retrace_waits (h : Retrace above s s') (habove : above ≠ none) : s'.waits = true := by
  cases h with
  | level h hw => exact hw habove
  | behind h hnone => exact absurd hnone habove

/-- Where both passes will find the same comment, the later one keeps its place in mind. -/
theorem retrace_catches {lines' : List Text} (h : Retrace (due o s i lines) s s')
    (hsame : owed o s' j lines' = due o s i lines) :
    Scan.above o s' j lines' = none ∧ due o s' j lines' = due o s i lines := by
  have howed : (due o s' j lines').or (Scan.above o s' j lines') = _ := due_or_above
  rw [hsame] at howed
  cases hw : s'.waits with
  | true =>
    have hnone : Scan.above o s' j lines' = none := by simp [Scan.above, hw]
    rw [hnone, Option.or_none] at howed
    exact ⟨hnone, howed⟩
  | false =>
    have hnone : due o s i lines = none := by
      cases hd : due o s i lines with
      | none => rfl
      | some text => simp [retrace_waits h (by simp [hd])] at hw
    rw [hnone, Option.or_eq_none_iff] at howed
    exact ⟨howed.2, howed.1.trans hnone.symm⟩

theorem not_waits_of_above {text : Text} (h : Scan.above o s i lines = some text) :
    s.waits = false := by
  cases hw : s.waits with
  | true => simp [Scan.above, hw] at h
  | false => rfl

/-- A line of code, behind the comment that goes above it. The later pass need not have the place
of that comment in mind. -/
theorem retrace_step (hm : o.mode = .regenerate) (ht : s.Tidy) (ht' : s'.Tidy)
    (hc : isComment line = false)
    (h : Level s s' ∨ Behind s s' ∧ owed o s i (line :: lines) = none) :
    (step o s' j line).inserted? = (step o s i line).inserted? ∧
      Retrace (due o (step o s i line).state (i + 1) lines) (step o s i line).state
        (step o s' j line).state := by
  rcases h with hlevel | ⟨hbehind, howed⟩
  · obtain ⟨hins, hunplaced, hwaits⟩ := step_unplaced (i := i) hm ht hc
    obtain ⟨hins', hunplaced', hwaits'⟩ := step_unplaced (i := j) hm ht' hc
    rw [hlevel.same] at hins' hunplaced' hwaits'
    refine ⟨hins'.trans hins.symm, .level ⟨hunplaced'.trans hunplaced.symm,
      depth_pos_step hc hlevel.pos⟩ ?_⟩
    intro hdue
    rw [hwaits', ← hwaits]
    cases hw : (step o s i line).state.waits with
    | true => rfl
    | false => exact absurd (due_of_not_waits hw) hdue
  · rw [owed_cons, Option.or_eq_none_iff] at howed
    obtain ⟨hins, hnext⟩ := @behind_step o o s s' i j line hc hbehind
    refine ⟨hins.trans howed.1.symm, ?_⟩
    rcases hnext with hnext | ⟨hl, hl'⟩
    · exact .behind hnext howed.2
    · exact .level (level_of_none hl hl') fun hdue => absurd howed.2 hdue

/-- The earlier pass takes out a comment, and the later one does not meet it. -/
theorem retrace_skip (hc : isComment line = true)
    (hl : ∀ p, s.openList ≠ some (.commented p)) (h : Retrace above s s') :
    Retrace none (step o s i line).state s' := by
  have hs : (step o s i line).state.openList = none := by
    rw [step_of_comment hc]
    rfl
  cases h with
  | level h habove =>
    cases hopen : s.openList with
    | none => exact .level (level_of_none hs (openList_of_level h hopen)) (by simp)
    | some a =>
      cases a with
      | commented p => exact absurd hopen (hl p)
      | bare depth =>
        exact .behind ⟨depth, bare_of_level h hopen, h.pos _ hopen, by simp [hs]⟩ rfl
  | behind h habove => exact .behind (behind_of_comment hc h) rfl

variable {br : LineBreak} {doc comments : List Line} {l : Line}

/-- Comments that a pass takes out leave only their trace in its state. -/
theorem written_comments (hm : o.mode = .regenerate) (hne : comments ≠ [])
    (hc : ∀ l ∈ comments, isComment l.text = true) :
    written o s i (comments ++ doc) = written o .documented (i + comments.length) doc := by
  induction comments generalizing s i with
  | nil => exact absurd rfl hne
  | cons l comments ih =>
    have hl := hc l (by simp)
    have hhead : written o s i (l :: (comments ++ doc)) =
        written o .documented (i + 1) (comments ++ doc) := by
      rw [written, List.map_cons, above_of_comment hl, step_of_comment hl]
      simp [kept, hm, hl, Line.ofText]
    rw [List.cons_append, hhead]
    cases comments with
    | nil => rfl
    | cons l' comments =>
      rw [ih (by simp) fun x hx => hc x (by simp [hx])]
      simp [Nat.add_comm, Nat.add_left_comm]

theorem written_code (hc : isComment l.text = false)
    (habove : Scan.above o s i (l.text :: doc.map Line.text) = above) :
    written o s i (l :: doc) = Line.ofText (above.getD []) ++
      (l :: written o (step o s i l.text).state (i + 1) doc) := by
  rw [written, List.map_cons, habove]
  simp [kept, hc]

variable {rest : List Line}

/-- A line of code that gets no comment of its own. -/
theorem written_of_no_comment (hc : isComment l.text = false)
    (habove : Scan.above o s i (l.text :: lines) = none)
    (h : Retrace (due o s i (l.text :: lines)) s s')
    (hbelow : Level s s' ∨ Behind s s' ∧ owed o s i (l.text :: lines) = none →
      owed o s' j (l.text :: rest.map Line.text) = owed o s i (l.text :: lines) ∧
        written o (step o s' j l.text).state (j + 1) rest = rest) :
    written o s' j (l :: rest) = l :: rest ∧
      due o s' j (l.text :: rest.map Line.text) = due o s i (l.text :: lines) := by
  have howed : (due o s i (l.text :: lines)).or _ = _ := due_or_above
  rw [habove, Option.or_none] at howed
  have hrel : Level s s' ∨ Behind s s' ∧ owed o s i (l.text :: lines) = none := by
    cases h with
    | level h hdue => exact .inl h
    | behind h hdue => exact .inr ⟨h, howed ▸ hdue⟩
  obtain ⟨hsame, hw⟩ := hbelow hrel
  obtain ⟨hnone, hdue⟩ := retrace_catches h (hsame.trans howed.symm)
  have hcode := written_code hc hnone
  rw [hw] at hcode
  exact ⟨hcode, hdue⟩

/-- The later pass finds the comment above a line of code, takes it out and writes it again. -/
theorem written_of_comment {text : Text} (hm : o.mode = .regenerate) (ht : s.Tidy)
    (hc : isComment l.text = false) (hblock : Comment.Block text)
    (habove : Scan.above o s i (l.text :: lines) = some text)
    (hbelow : ∀ k, Level s .documented →
      owed o .documented k (l.text :: rest.map Line.text) = owed o s i (l.text :: lines) ∧
        written o (step o .documented k l.text).state (k + 1) rest = rest) :
    written o s' j (Line.ofText text ++ l :: rest) = Line.ofText text ++ l :: rest ∧
      due o s' j ((Line.ofText text ++ l :: rest).map Line.text) =
        due o s i (l.text :: lines) := by
  have hne := Comment.block_ne_nil hblock
  have hcomments : ∀ l' ∈ Line.ofText text, isComment l'.text = true :=
    fun l' hl' => (Comment.block_lines hblock hl').1
  have hdue : due o s i (l.text :: lines) = none := due_of_not_waits (not_waits_of_above habove)
  have howed : (due o s i (l.text :: lines)).or _ = _ := due_or_above
  rw [hdue, Option.none_or, habove] at howed
  obtain ⟨hsame, hw⟩ := hbelow (j + (Line.ofText text).length)
    (level_of_none (openList_of_above ht hc habove) rfl)
  have hagain : Scan.above o .documented (j + (Line.ofText text).length)
      (l.text :: rest.map Line.text) = some text := hsame.trans howed.symm
  refine ⟨?_, ?_⟩
  · rw [written_comments hm hne hcomments, written_code hc hagain, hw, Option.getD_some]
  · obtain ⟨first, others, hfirst⟩ := List.exists_cons_of_ne_nil hne
    rw [hdue, hfirst, List.cons_append, List.map_cons]
    exact due_of_comment (hcomments first (by simp [hfirst]))

/-- Over written lines a pass that writes all comments anew writes the same lines. -/
theorem written_written (ho : o.Commenting br) (hm : o.mode = .regenerate)
    (hp : Line.Proper doc) (hs : s.Sound Comment.Block br) (ht : s.Tidy) (ht' : s'.Tidy)
    (hmet : ∀ t ∈ atComments o s i (doc.map Line.text), ∀ p, t.openList ≠ some (.commented p))
    (h : Retrace (due o s i (doc.map Line.text)) s s') :
    written o s' j (written o s i doc) = written o s i doc ∧
      due o s' j ((written o s i doc).map Line.text) = due o s i (doc.map Line.text) := by
  induction doc generalizing s s' i j with
  | nil => simp [written]
  | cons l doc ih =>
    have hrest := fun s' j ht' => @ih (step o s i l.text).state s' (i + 1) j hp.2.2
      (sound_step ho (ensures_block ho) hp.1.noFeed hs) (tidy_step ht) ht' fun t hmem =>
        hmet t (by simp [atComments, hmem])
    rw [List.map_cons] at h ⊢
    cases hc : isComment l.text with
    | true =>
      have hskip : written o s i (l :: doc) =
          written o (step o s i l.text).state (i + 1) doc := by
        rw [written, List.map_cons, above_of_comment hc]
        simp [kept, hm, hc, Line.ofText]
      have hdue : due o (step o s i l.text).state (i + 1) (doc.map Line.text) = none :=
        due_of_not_waits (waits_of_comment hc)
      rw [hskip, due_of_comment hc, ← hdue]
      exact hrest s' j ht' (hdue ▸ retrace_skip hc (hmet s (by simp [atComments, hc])) h)
    | false =>
      have hbelow : ∀ t k, t.Tidy →
          Level s t ∨ Behind s t ∧ owed o s i (l.text :: doc.map Line.text) = none →
          owed o t k (l.text :: (written o (step o s i l.text).state (i + 1) doc).map Line.text) =
              owed o s i (l.text :: doc.map Line.text) ∧
            written o (step o t k l.text).state (k + 1)
              (written o (step o s i l.text).state (i + 1) doc) =
                written o (step o s i l.text).state (i + 1) doc := by
        intro t k htidy hrel
        obtain ⟨hins, hnext⟩ := retrace_step hm ht htidy hc hrel
        obtain ⟨hw, hd⟩ := hrest _ (k + 1) (tidy_step htidy) hnext
        exact ⟨by rw [owed_cons, owed_cons, hins, hd], hw⟩
      rw [written_code hc rfl]
      cases habove : Scan.above o s i (l.text :: doc.map Line.text) with
      | none => exact written_of_no_comment hc habove h (hbelow s' j ht')
      | some text =>
        have hblock := ensures_above ho (ensures_block ho) (noFeed_of_proper hp) hs habove
        exact written_of_comment hm ht hc hblock habove fun k hlevel =>
          hbelow .documented k (by simp [State.Tidy, State.documented, State.neutral]) (.inl hlevel)

end TripleSlash.Scan
