import Mathlib.Data.List.Forall2
import TripleSlash.Proofs.Scan.Outline

/-! Where the comments of a pass go. What a pass knows between two lines is what the outline of the
file says about the lines above, so it comments the declarations that are to get a comment, each
above its attributes, and no others. -/
namespace TripleSlash.Scan

variable {o : Options} {s : State} {lines : List Text} {i j k : Nat} {d : Declaration} {line : Text}

/-- What a state says of the line at `j` where no list is open. -/
structure AtRest (lines : List Text) (j : Nat) (s : State) : Prop where
  free : ¬ Consumed lines j
  run : RunStart lines j (s.attributesAt.getD j)
  documented : s.afterComment = true ↔ Documented lines j

/-- What a state says of the line at `j` inside a list. -/
structure InList (o : Options) (lines : List Text) (j : Nat) (s : State) (a : OpenList) : Prop where
  attributesAt : s.attributesAt = none
  afterComment : s.afterComment = false
  opener : ∃ i d, OpenAt lines j i d ∧ a.depth = depthBehind d (between lines i j) ∧
    (a.isBare = false ↔ Wanted lines o i d) ∧
    ∀ p, a = .commented p → p.declaredAt = i ∧ RunStart lines i p.insertAt

/-- What a state says of the line at `j`. -/
structure Knows (o : Options) (lines : List Text) (j : Nat) (s : State) : Prop where
  rest : s.openList = none → AtRest lines j s
  list : ∀ a, s.openList = some a → InList o lines j s a

theorem knows_rest (hl : s.openList = none) (h : AtRest lines j s) : Knows o lines j s :=
  ⟨fun _ => h, by simp [hl]⟩

theorem knows_list {a : OpenList} (hl : s.openList = some a) (h : InList o lines j s a) :
    Knows o lines j s :=
  ⟨by simp [hl], fun b hb => by
    obtain rfl : a = b := by simpa [hl] using hb
    exact h⟩

theorem knows_neutral (o : Options) (lines : List Text) : Knows o lines 0 .neutral := by
  refine knows_rest rfl ⟨?_, runStart_self (by simp), ?_⟩
  · rw [consumed_iff]
    rintro ⟨i, d, h⟩
    exact absurd h.before (Nat.not_lt_zero i)
  · constructor
    · intro h
      simp [State.neutral] at h
    · rintro ⟨k, hk, -⟩
      exact absurd hk (Nat.not_lt_zero k)

theorem comment?_isSome (hdoc : s.afterComment = true ↔ Documented lines i) :
    (comment? o s d).isSome = true ↔ Wanted lines o i d := by
  have hrender : (Comment.render? o.templates o.lineBreak d).isSome = true ↔ d.kind.Templated := by
    rw [← @Comment.template?_isSome_iff o.templates]
    simp [Comment.render?, Comment.body?]
  unfold comment?
  split
  next hskip =>
    refine ⟨by simp, fun h => ?_⟩
    exact absurd (hdoc.mp hskip.2) (h.undocumented hskip.1)
  next hskip =>
    split
    next henabled =>
      rw [hrender]
      refine ⟨fun h => ⟨henabled, h, fun hm hd => hskip ⟨hm, hdoc.mpr hd⟩⟩, Wanted.template⟩
    next henabled => exact ⟨by simp, fun h => absurd h.enabled henabled⟩

theorem closes_of_finish? {ts : Templates} {p : Comment.Pending} {text : Text}
    (h : p.finish? ts line = some text) : Parens.closes p.depth line = true := by
  cases hclose : Parens.closes p.depth line with
  | true => rfl
  | false => simp [finish?_of_not_closes hclose] at h

theorem not_closes_of_finish? {ts : Templates} {p : Comment.Pending}
    (h : p.finish? ts line = none) : Parens.closes p.depth line = false := by
  cases hclose : Parens.closes p.depth line with
  | false => rfl
  | true => simp [finish?_of_closes hclose] at h

/-! What the outline says of the line behind the one at `j`. -/

theorem not_attribute_of_consumed (h : Consumed lines j) : ¬ Attribute lines j :=
  fun ha => ha.free h

/-- Behind a line with no open list and no attribute, everything begins again. -/
theorem atRest_neutral (hline : lines[j]? = some line) (hc : isComment line = false)
    (hfree : ¬ Consumed lines (j + 1)) (ha : ¬ Attribute lines j) :
    AtRest lines (j + 1) .neutral where
  free := hfree
  run := runStart_succ ha
  documented := by simp [State.neutral, not_documented_succ ha hline hc]

theorem free_succ (hline : lines[j]? = some line) (hfree : ¬ Consumed lines j)
    (hwhole : ∀ d, Declares lines j d → d.isOpen = false) : ¬ Consumed lines (j + 1) := by
  rw [consumed_iff]
  rintro ⟨i, d, h⟩
  rcases (openAt_succ hline).mp h with ⟨-, hd, ho⟩ | ⟨h, -, -⟩
  · simp [hwhole d hd] at ho
  · exact hfree (consumed_iff.mpr ⟨i, d, h⟩)

theorem free_succ_of_comment (hline : lines[j]? = some line) (hc : isComment line = true) :
    ¬ Consumed lines (j + 1) := by
  rw [consumed_iff]
  rintro ⟨i, d, h⟩
  rcases (openAt_succ hline).mp h with ⟨-, hd, -⟩ | ⟨-, hc', -⟩
  · simp [(hd.recognize? hline).1] at hc
  · simp [hc'] at hc

theorem free_succ_of_closes (hline : lines[j]? = some line) (hopen : OpenAt lines j i d)
    (hclose : Parens.closes (depthBehind d (between lines i j)) line = true) :
    ¬ Consumed lines (j + 1) := by
  rw [consumed_iff]
  rintro ⟨i', d', h⟩
  rcases (openAt_succ hline).mp h with ⟨-, hd, -⟩ | ⟨h, -, hclose'⟩
  · exact hd.free (consumed_iff.mpr ⟨i, d, hopen⟩)
  · obtain ⟨rfl, rfl⟩ := hopen.unique h
    simp [hclose] at hclose'

/-- Where its last line ends a list, everything begins again. -/
theorem atRest_of_closes {a : OpenList} (hline : lines[j]? = some line)
    (hc : isComment line = false) (h : InList o lines j s a)
    (hclose : Parens.closes a.depth line = true) :
    AtRest lines (j + 1) { s with openList := none } := by
  obtain ⟨i, d, hopen, hdepth, -, -⟩ := h.opener
  have hstate : ({ s with openList := none } : State) = .neutral := by
    simp [State.neutral, h.attributesAt, h.afterComment]
  rw [hstate]
  exact atRest_neutral hline hc (free_succ_of_closes hline hopen (hdepth ▸ hclose))
    (not_attribute_of_consumed (consumed_iff.mpr ⟨i, d, hopen⟩))

/-- A line that does not end a list leaves it as it is, but for the depth. -/
theorem inList_of_not_closes {a b : OpenList} (hline : lines[j]? = some line)
    (hc : isComment line = false) (h : InList o lines j s a)
    (hclose : Parens.closes a.depth line = false)
    (hdepth : b.depth = Parens.depthAfter a.depth line) (hbare : b.isBare = a.isBare)
    (hplace : ∀ p, b = .commented p → ∃ q, a = .commented q ∧ p.declaredAt = q.declaredAt ∧
      p.insertAt = q.insertAt) :
    InList o lines (j + 1) { s with openList := some b } b where
  attributesAt := h.attributesAt
  afterComment := h.afterComment
  opener := by
    obtain ⟨i, d, hopen, hd, hwanted, hp⟩ := h.opener
    rw [hd] at hclose
    refine ⟨i, d, (openAt_succ hline).mpr (.inr ⟨hopen, hc, hclose⟩), ?_, hbare ▸ hwanted, ?_⟩
    · rw [hdepth, hd, hopen.depth_succ hline hc]
    · intro p hb
      obtain ⟨q, ha, hdeclared, hinsert⟩ := hplace p hb
      rw [hdeclared, hinsert]
      exact hp q ha

/-- A declaration whose parameters go on below opens a list. -/
theorem inList_of_opening {b : OpenList} (hline : lines[j]? = some line)
    (hd : Declares lines j d) (ho : d.isOpen = true)
    (hdepth : b.depth = Parens.depthAfter Parens.opened d.rawParameters)
    (hbare : b.isBare = false ↔ Wanted lines o j d)
    (hplace : ∀ p, b = .commented p → p.declaredAt = j ∧ RunStart lines j p.insertAt) :
    InList o lines (j + 1) { State.neutral with openList := some b } b where
  attributesAt := rfl
  afterComment := rfl
  opener := ⟨j, d, (openAt_succ hline).mpr (.inl ⟨rfl, hd, ho⟩), by
    simp [hdepth, depthBehind, between_self], hbare, hplace⟩

theorem knows_step (hline : lines[j]? = some line) (h : Knows o lines j s) :
    Knows o lines (j + 1) (step o s j line).state := by
  have hattribute : ∀ {b}, isAttribute line = b → Attribute lines j → b = true :=
    fun hb ha => hb ▸ ha.isAttribute hline
  generalize hr : step o s j line = r
  cases hr ▸ step_case o s j line with
  | comment hc =>
    have ha : ¬ Attribute lines j := fun ha => by
      simpa using hattribute (isAttribute_of_isComment hc) ha
    refine knows_rest rfl ⟨free_succ_of_comment hline hc, runStart_succ ha, ?_⟩
    simp [onComment, documented_succ_of_comment hline hc]
  | @finished p text hc hl hf =>
    exact knows_rest rfl (atRest_of_closes hline hc (h.list _ hl) (closes_of_finish? hf))
  | @pending p hc hl hf =>
    refine knows_list rfl
      (inList_of_not_closes hline hc (h.list _ hl) (not_closes_of_finish? hf) rfl rfl ?_)
    rintro q hq
    obtain rfl : p.accept o.templates line = q := by simpa using hq
    exact ⟨p, rfl, rfl, rfl⟩
  | @closed depth before rest hc hl hp =>
    have hclose : Parens.closes depth line = true := by simp [Parens.closes, hp]
    exact knows_rest rfl (atRest_of_closes hline hc (h.list _ hl) hclose)
  | @unclosed depth deeper hc hl hp =>
    have hclose : Parens.closes depth line = false := by simp [Parens.closes, hp]
    refine knows_list rfl (inList_of_not_closes hline hc (h.list _ hl) hclose ?_ rfl (by simp))
    simp [OpenList.depth, Parens.depthAfter, hp]
  | other hc hl ha hd =>
    have hrest := h.rest hl
    refine knows_rest rfl (atRest_neutral hline hc (free_succ hline hrest.free fun d hd' => ?_)
      fun hattr => by simpa using hattribute ha hattr)
    simp [(hd'.recognize? hline).2.2] at hd
  | @opening d text hc hl ha hd ht ho =>
    have hrest := h.rest hl
    have hwanted : Wanted lines o j d := (comment?_isSome hrest.documented).mp (by simp [ht])
    refine knows_list rfl (inList_of_opening hline ⟨hrest.free, line, hline, hc, ha, hd⟩ ho rfl
      (by simp [OpenList.isBare, hwanted]) ?_)
    rintro q hq
    obtain rfl := OpenList.commented.inj hq
    exact ⟨rfl, hrest.run⟩
  | @whole d text hc hl ha hd ht ho =>
    have hrest := h.rest hl
    refine knows_rest rfl (atRest_neutral hline hc (free_succ hline hrest.free fun d' hd' => ?_)
      fun hattr => by simpa using hattribute ha hattr)
    obtain rfl : d = d' := by simpa [hd] using (hd'.recognize? hline).2.2
    exact ho
  | @skipped d hc hl ha hd ht ho =>
    have hrest := h.rest hl
    have hwanted : ¬ Wanted lines o j d := fun hw => by
      simpa [ht] using (comment?_isSome hrest.documented).mpr hw
    exact knows_list rfl (inList_of_opening hline ⟨hrest.free, line, hline, hc, ha, hd⟩ ho rfl
      (by simp [OpenList.isBare, hwanted]) (by simp))
  | @passed d hc hl ha hd ht ho =>
    have hrest := h.rest hl
    refine knows_rest rfl (atRest_neutral hline hc (free_succ hline hrest.free fun d' hd' => ?_)
      fun hattr => by simpa using hattribute ha hattr)
    obtain rfl : d = d' := by simpa [hd] using (hd'.recognize? hline).2.2
    exact ho
  | _ =>
    rename_i hc hl ha -- an attribute
    have hrest := h.rest hl
    have hattr : Attribute lines j := ⟨hrest.free, line, hline, ha⟩
    refine knows_rest hl ⟨free_succ hline hrest.free fun d hd => ?_, ?_, ?_⟩
    · simp [(hd.recognize? hline).2.1] at ha
    · simpa [onAttribute] using hrest.run.succ hattr
    · exact hrest.documented.trans (documented_succ_of_attribute hattr hline hc).symm

/-! The comments that a pass still owes. -/

/-- A list of a declaration whose comment waits for its end. -/
def State.Waits (s : State) (i : Nat) : Prop :=
  ∃ p, s.openList = some (.commented p) ∧ p.declaredAt = i

/-- The declaration at `i` is to get a comment, and a pass in front of the line at `j` has not
written it yet. -/
def Awaited (o : Options) (lines : List Text) (j : Nat) (s : State) (i : Nat) : Prop :=
  (∃ d, Commented lines o i d) ∧ (j ≤ i ∨ s.Waits i)

theorem waits_of_openList {a : OpenList} (hl : s.openList = some a) (ha : a.isBare = true) :
    ¬ s.Waits i := by
  rintro ⟨p, hp, -⟩
  obtain rfl : a = .commented p := by simpa [hl] using hp
  simp [OpenList.isBare] at ha

theorem waits_of_rest (hl : s.openList = none) : ¬ s.Waits i := by
  rintro ⟨p, hp, -⟩
  simp [hl] at hp

theorem not_commented_of_consumed (h : Consumed lines j) : ¬ Commented lines o j d :=
  fun hd => hd.declares.free h

theorem InList.consumed {a : OpenList} (h : InList o lines j s a) : Consumed lines j := by
  obtain ⟨i, d, hopen, -⟩ := h.opener
  exact consumed_iff.mpr ⟨i, d, hopen⟩

/-- A declaration that a pass finds no comment for is not to get one. -/
theorem not_commented_of_comment? (h : AtRest lines j s) (hline : lines[j]? = some line)
    (hd : Declaration.recognize? line = some d) (ht : comment? o s d = none) :
    ∀ d', ¬ Commented lines o j d' := by
  intro d' hd'
  obtain rfl : d = d' := by simpa [hd] using (hd'.declares.recognize? hline).2.2
  simpa [ht] using (comment?_isSome h.documented).mpr hd'.wanted

/-- A line that ends no comment hands on what is awaited. -/
theorem awaited_succ {t : State} (hj : ∀ d, Commented lines o j d → t.Waits j)
    (ht : ∀ i, t.Waits i → i = j ∨ s.Waits i)
    (hs : ∀ i d, s.Waits i → Commented lines o i d → t.Waits i) (i : Nat) :
    Awaited o lines j s i ↔ Awaited o lines (j + 1) t i := by
  constructor
  · rintro ⟨⟨d, hd⟩, hij | hw⟩
    · rcases Nat.eq_or_lt_of_le hij with rfl | hlt
      · exact ⟨⟨d, hd⟩, .inr (hj d hd)⟩
      · exact ⟨⟨d, hd⟩, .inl hlt⟩
    · exact ⟨⟨d, hd⟩, .inr (hs i d hw hd)⟩
  · rintro ⟨hd, hij | hw⟩
    · exact ⟨hd, .inl (by omega)⟩
    · rcases ht i hw with rfl | hw
      · exact ⟨hd, .inl (Nat.le_refl i)⟩
      · exact ⟨hd, .inr hw⟩

/-- A line that ends the comment of the declaration at `i` settles that one, and nothing else. -/
theorem awaited_settled {t : State} (hi : ∃ d, Commented lines o i d) (hij : i ≤ j)
    (hj : ∀ d, Commented lines o j d → i = j) (hs : ∀ k, s.Waits k → k = i)
    (hw : i = j ∨ s.Waits i) (ht : t.openList = none) :
    (∀ k, Awaited o lines (j + 1) t k → i < k) ∧
      ∀ k, Awaited o lines j s k ↔ k = i ∨ Awaited o lines (j + 1) t k := by
  have hlater : ∀ k, Awaited o lines (j + 1) t k → j + 1 ≤ k := by
    rintro k ⟨-, hjk | hwk⟩
    · exact hjk
    · exact absurd hwk (waits_of_rest ht)
  refine ⟨fun k hk => Nat.lt_of_le_of_lt hij (hlater k hk), fun k => ?_⟩
  constructor
  · rintro ⟨⟨d, hd⟩, hjk | hwk⟩
    · rcases Nat.eq_or_lt_of_le hjk with rfl | hlt
      · exact .inl (hj d hd).symm
      · exact .inr ⟨⟨d, hd⟩, .inl hlt⟩
    · exact .inl (hs k hwk)
  · rintro (rfl | hk)
    · rcases hw with rfl | hw
      · exact ⟨hi, .inl (Nat.le_refl k)⟩
      · exact ⟨hi, .inr hw⟩
    · exact ⟨hk.1, .inl (Nat.le_of_succ_le (hlater k hk))⟩

/-- Each line either leaves open what is awaited, or settles one declaration by a comment at the
start of its run of attributes. -/
theorem awaited_step (hline : lines[j]? = some line) (h : Knows o lines j s) :
    ((step o s j line).inserted? = none ∧
      ∀ i, Awaited o lines j s i ↔ Awaited o lines (j + 1) (step o s j line).state i) ∨
    ∃ text i, (step o s j line).inserted? = some text ∧ RunStart lines i (s.anchor?.getD j) ∧
      (∀ k, Awaited o lines (j + 1) (step o s j line).state k → i < k) ∧
      ∀ k, Awaited o lines j s k ↔ k = i ∨ Awaited o lines (j + 1) (step o s j line).state k := by
  generalize hr : step o s j line = r
  cases hr ▸ step_case o s j line with
  | comment hc =>
    left
    refine ⟨hr ▸ inserted?_of_comment hc, awaited_succ ?_ ?_ ?_⟩
    · intro d hd
      simp [(hd.declares.recognize? hline).1] at hc
    · exact fun i hw => absurd hw (waits_of_rest rfl)
    · rintro i d ⟨p, hl, rfl⟩ hd
      obtain ⟨i, d', hopen, -, -, hplace⟩ := (h.list _ hl).opener
      obtain rfl := (hplace p rfl).1
      obtain rfl := hd.declares.unique hopen.declares
      exact absurd (hd.closes hopen.isOpen) (hopen.not_closes_of_comment hline hc)
  | @finished p text hc hl hf =>
    right
    obtain ⟨i, d, hopen, hdepth, hwanted, hplace⟩ := (h.list _ hl).opener
    obtain ⟨rfl, hrun⟩ := hplace p rfl
    have hclose := closes_of_finish? hf
    have hcommented : Commented lines o p.declaredAt d :=
      ⟨hopen.declares, hwanted.mp rfl, fun _ => ⟨j + 1, hopen.closes hline hc (hdepth ▸ hclose)⟩⟩
    refine ⟨text, p.declaredAt, rfl, by simpa [State.anchor?, hl] using hrun,
      awaited_settled ⟨d, hcommented⟩ (Nat.le_of_lt hopen.before) ?_ ?_ (.inr ⟨p, hl, rfl⟩) rfl⟩
    · exact fun d' hd' => absurd hd' (not_commented_of_consumed (h.list _ hl).consumed)
    · rintro k ⟨q, hq, rfl⟩
      obtain rfl : p = q := by simpa [hl] using hq
      rfl
  | @pending p hc hl hf =>
    left
    refine ⟨rfl, awaited_succ ?_ ?_ ?_⟩
    · exact fun d hd => absurd hd (not_commented_of_consumed (h.list _ hl).consumed)
    · rintro i ⟨q, hq, rfl⟩
      obtain rfl : p.accept o.templates line = q := by simpa using hq
      exact .inr ⟨p, hl, rfl⟩
    · rintro i d ⟨q, hq, rfl⟩ -
      obtain rfl : p = q := by simpa [hl] using hq
      exact ⟨_, rfl, rfl⟩
  | @closed depth before rest hc hl hp =>
    left
    refine ⟨rfl, awaited_succ ?_ ?_ ?_⟩
    · exact fun d hd => absurd hd (not_commented_of_consumed (h.list _ hl).consumed)
    · exact fun i hw => absurd hw (waits_of_rest rfl)
    · exact fun i d hw => absurd hw (waits_of_openList hl rfl)
  | @unclosed depth deeper hc hl hp =>
    left
    refine ⟨rfl, awaited_succ ?_ ?_ ?_⟩
    · exact fun d hd => absurd hd (not_commented_of_consumed (h.list _ hl).consumed)
    · exact fun i hw => absurd hw (waits_of_openList rfl rfl)
    · exact fun i d hw => absurd hw (waits_of_openList hl rfl)
  | other hc hl ha hd =>
    left
    refine ⟨rfl, awaited_succ ?_ ?_ ?_⟩
    · intro d hd'
      simp [(hd'.declares.recognize? hline).2.2] at hd
    · exact fun i hw => absurd hw (waits_of_rest rfl)
    · exact fun i d hw => absurd hw (waits_of_rest hl)
  | @opening d text hc hl ha hd ht ho =>
    left
    refine ⟨rfl, awaited_succ ?_ ?_ ?_⟩
    · exact fun d' _ => ⟨_, rfl, rfl⟩
    · rintro i ⟨q, hq, rfl⟩
      obtain rfl := OpenList.commented.inj (Option.some.inj hq)
      exact .inl rfl
    · exact fun i d hw => absurd hw (waits_of_rest hl)
  | @whole d text hc hl ha hd ht ho =>
    right
    have hrest := h.rest hl
    have hcommented : Commented lines o j d :=
      ⟨⟨hrest.free, line, hline, hc, ha, hd⟩,
        (comment?_isSome hrest.documented).mp (by simp [ht]), by simp [ho]⟩
    refine ⟨text, j, rfl, by simpa [State.anchor?, hl] using hrest.run,
      awaited_settled ⟨d, hcommented⟩ (Nat.le_refl j) (fun _ _ => rfl) ?_ (.inl rfl) rfl⟩
    exact fun k hw => absurd hw (waits_of_rest hl)
  | @skipped d hc hl ha hd ht ho =>
    left
    have hnone := not_commented_of_comment? (h.rest hl) hline hd ht
    refine ⟨rfl, awaited_succ ?_ ?_ ?_⟩
    · exact fun d' hd' => absurd hd' (hnone d')
    · exact fun i hw => absurd hw (waits_of_openList rfl rfl)
    · exact fun i d hw => absurd hw (waits_of_rest hl)
  | @passed d hc hl ha hd ht ho =>
    left
    have hnone := not_commented_of_comment? (h.rest hl) hline hd ht
    refine ⟨rfl, awaited_succ ?_ ?_ ?_⟩
    · exact fun d' hd' => absurd hd' (hnone d')
    · exact fun i hw => absurd hw (waits_of_rest rfl)
    · exact fun i d hw => absurd hw (waits_of_rest hl)
  | _ =>
    rename_i hc hl ha -- an attribute
    left
    refine ⟨rfl, awaited_succ ?_ ?_ ?_⟩
    · intro d hd
      simp [(hd.declares.recognize? hline).2.1] at ha
    · exact fun i hw => absurd hw (waits_of_rest hl)
    · exact fun i d hw => absurd hw (waits_of_rest hl)

/-- At the end of the file nothing is awaited any more. -/
theorem not_awaited (hj : lines.length ≤ j) (h : Knows o lines j s) :
    ¬ Awaited o lines j s i := by
  rintro ⟨⟨d, hd⟩, hji | ⟨p, hl, rfl⟩⟩
  · obtain ⟨line, hline, -⟩ := hd.declares.line
    simp [List.getElem?_eq_none (Nat.le_trans hj hji)] at hline
  · obtain ⟨i, d', hopen, -, -, hplace⟩ := (h.list _ hl).opener
    obtain rfl := (hplace p rfl).1
    obtain rfl := hd.declares.unique hopen.declares
    exact absurd (hd.closes hopen.isOpen) (hopen.not_closes_of_length_le hj)

/-- The lines above which edits put comments. -/
def insertions (es : List Edit) : List Nat :=
  es.filterMap fun
    | .insert n _ => some n
    | .delete _ => none

theorem insertions_step : insertions (step o s j line).edits =
    (step o s j line).inserted?.toList.map fun _ => s.anchor?.getD j := by
  have hdeletion : insertions (deletion o j line) = [] := by
    unfold deletion
    split <;> rfl
  rw [step_edits, insertions, List.filterMap_append]
  change insertions (deletion o j line) ++ _ = _
  rw [hdeletion]
  cases (step o s j line).inserted? <;> rfl

/-- From a line on, a pass comments what is awaited there, in the order of the lines. -/
theorem insertions_editsFrom {rest : List Text} (hrest : lines.drop j = rest)
    (h : Knows o lines j s) :
    ∃ is : List Nat, is.Pairwise (· < ·) ∧ (∀ i, i ∈ is ↔ Awaited o lines j s i) ∧
      List.Forall₂ (RunStart lines) is (insertions (editsFrom o s j rest)) := by
  induction rest generalizing s j with
  | nil =>
    refine ⟨[], .nil, fun i => ?_, .nil⟩
    have hj : lines.length ≤ j := by simpa using hrest
    simp [not_awaited hj h]
  | cons line rest ih =>
    obtain ⟨hline, hdrop⟩ := getElem?_of_drop hrest
    obtain ⟨is, hsorted, hmem, hruns⟩ := ih hdrop (knows_step hline h)
    have hedits : insertions (editsFrom o s j (line :: rest)) =
        insertions (step o s j line).edits ++
          insertions (editsFrom o (step o s j line).state (j + 1) rest) := by
      rw [editsFrom, insertions, List.filterMap_append]
      rfl
    rw [hedits, insertions_step]
    rcases awaited_step hline h with ⟨hnone, hsame⟩ | ⟨text, i, hsome, hrun, hlater, hboth⟩
    · rw [hnone]
      exact ⟨is, hsorted, fun i => (hmem i).trans (hsame i).symm, hruns⟩
    · rw [hsome]
      refine ⟨i :: is, List.pairwise_cons.mpr ⟨fun k hk => hlater k ((hmem k).mp hk), hsorted⟩,
        fun k => ?_, .cons hrun hruns⟩
      rw [List.mem_cons, hmem, hboth]

/-- A pass writes one comment for each declaration that is to get one, at the start of the run of
attributes above it, and no others. -/
theorem comments_placed (o : Options) (lines : List Text) :
    ∃ is : List Nat, is.Pairwise (· < ·) ∧ (∀ i, i ∈ is ↔ ∃ d, Commented lines o i d) ∧
      List.Forall₂ (RunStart lines) is (insertions (edits o lines)) := by
  obtain ⟨is, hsorted, hmem, hruns⟩ := insertions_editsFrom rfl (knows_neutral o lines)
  refine ⟨is, hsorted, fun i => ?_, by rwa [edits_eq_editsFrom]⟩
  rw [hmem, Awaited]
  simp

end TripleSlash.Scan
