import TripleSlash.Proofs.Parameter

/-! The pieces of a text between its separators, and how they go on in the text behind it. -/
namespace TripleSlash.Brackets

variable {t w x y : Text} {c : Char} {sep sep' : Char → Bool} {d e : Nat}

theorem step_of_cuts (h : cuts sep d c = true) : step d c = d := by
  simp only [cuts, Bool.and_eq_true, decide_eq_true_eq] at h
  simp [step, h.1.1.2, h.1.2]

theorem step_mono (h : d ≤ e) (c : Char) : step d c ≤ step e c := by
  unfold step
  split
  · omega
  · split <;> omega

/-- A text keeps the order of depths. -/
theorem depthAfter_mono (h : d ≤ e) (t : Text) : depthAfter d t ≤ depthAfter e t := by
  induction t generalizing d e with
  | nil => exact h
  | cons c t ih => exact ih (step_mono h c)

theorem depthAfter_append : depthAfter d (x ++ y) = depthAfter (depthAfter d x) y :=
  List.foldl_append

theorem not_bracket_of_isBlank (h : isBlank c = true) : c ∉ opening ∧ c ∉ closing := by
  have hbracket : ∀ c ∈ opening ++ closing, (!isBlank c) = true := List.all_eq_true.mp (by decide)
  constructor
  · intro hc
    simpa [h] using hbracket c (List.mem_append_left _ hc)
  · intro hc
    simpa [h] using hbracket c (List.mem_append_right _ hc)

theorem not_mem_of_blank {s : Char} (hs : isBlank s = false) (hw : ∀ c ∈ w, isBlank c = true) :
    s ∉ w := fun hm => by
  simp [hw s hm] at hs

theorem depthAfter_blank (hw : ∀ c ∈ w, isBlank c = true) : depthAfter d w = d := by
  induction w with
  | nil => rfl
  | cons c w ih =>
    rw [List.forall_mem_cons] at hw
    obtain ⟨ho, hc⟩ := not_bracket_of_isBlank hw.1
    rw [depthAfter, List.foldl_cons, step, if_neg ho, if_neg hc]
    exact ih hw.2

/-- Behind a text its last piece goes on, at the depth that the text leaves. -/
theorem split_append (sep : Char → Bool) (d : Nat) (x : Text) :
    ∃ pieces piece, split sep d x = pieces ++ [piece] ∧ ∀ y,
      split sep d (x ++ y) = pieces ++ (split sep (depthAfter d x) y).modifyHead (piece ++ ·) := by
  induction x generalizing d with
  | nil => exact ⟨[], [], rfl, fun y => (congrFun List.modifyHead_id _).symm⟩
  | cons c x ih =>
    by_cases hcut : cuts sep d c = true
    · obtain ⟨pieces, piece, hx, hxy⟩ := ih d
      refine ⟨[] :: pieces, piece, by simp [split, hcut, hx], fun y => ?_⟩
      have hdepth : depthAfter d (c :: x) = depthAfter d x := by
        rw [depthAfter, List.foldl_cons, step_of_cuts hcut]
        rfl
      rw [hdepth, List.cons_append, split, if_pos hcut, hxy]
      rfl
    · obtain ⟨pieces, piece, hx, hxy⟩ := ih (step d c)
      have hdepth : depthAfter d (c :: x) = depthAfter (step d c) x := rfl
      cases pieces with
      | nil =>
        refine ⟨[], c :: piece, by simp [split, hcut, hx], fun y => ?_⟩
        rw [hdepth, List.cons_append, split, if_neg hcut, hxy, List.nil_append,
          List.modifyHead_modifyHead]
        rfl
      | cons first pieces =>
        refine ⟨(c :: first) :: pieces, piece, by simp [split, hcut, hx], fun y => ?_⟩
        rw [hdepth, List.cons_append, split, if_neg hcut, hxy]
        rfl

/-- A separator outside of all brackets divides a text. -/
theorem split_separator (ha : depthAfter d x = 0) (hc : cuts sep 0 c = true) (y : Text) :
    split sep d (x ++ c :: y) = split sep d x ++ split sep 0 y := by
  obtain ⟨pieces, piece, hx, hxy⟩ := split_append sep d x
  have hcut : split sep 0 (c :: y) = [] :: split sep 0 y := by rw [split, if_pos hc]
  rw [hxy, ha, hcut, List.modifyHead_cons, List.append_nil, hx, List.append_assoc]
  rfl

/-- What stands in front of the first separator is the first piece. -/
theorem split_eq_cons (sep : Char → Bool) (d : Nat) (t : Text) :
    ∃ pieces, split sep d t = before sep d t :: pieces := by
  induction t generalizing d with
  | nil => exact ⟨[], rfl⟩
  | cons c t ih =>
    unfold split before
    split
    · exact ⟨_, rfl⟩
    · obtain ⟨pieces, ht⟩ := ih (step d c)
      exact ⟨pieces, by rw [ht]; rfl⟩

/-- A text that nothing separates does not separate what follows it either. -/
theorem append_of_before (h : before sep d x = x) (y : Text) :
    before sep d (x ++ y) = x ++ before sep (depthAfter d x) y ∧
      split sep d (x ++ y) = (split sep (depthAfter d x) y).modifyHead (x ++ ·) := by
  induction x generalizing d with
  | nil => exact ⟨rfl, (congrFun List.modifyHead_id _).symm⟩
  | cons c x ih =>
    unfold before at h
    split at h
    next => simp at h
    next hcut =>
      have hdepth : depthAfter d (c :: x) = depthAfter (step d c) x := rfl
      obtain ⟨hbefore, hsplit⟩ := ih (List.cons.inj h).2
      rw [hdepth, List.cons_append]
      constructor
      · rw [before, if_neg hcut, hbefore]
        rfl
      · rw [split, if_neg hcut, hsplit, List.modifyHead_modifyHead]
        rfl

theorem split_of_before (h : before sep d x = x) : split sep d x = [x] := by
  simpa [split] using (append_of_before h []).2

theorem before_of_append (h : before sep d (x ++ y) = x ++ y) : before sep d x = x := by
  induction x generalizing d with
  | nil => rfl
  | cons c x ih =>
    rw [List.cons_append] at h
    unfold before at h ⊢
    split at h
    next => simp at h
    next hcut => rw [if_neg hcut, ih (List.cons.inj h).2]

/-- Fewer separators separate less. -/
theorem before_of_imp (hsep : ∀ c, sep c = true → sep' c = true) (h : before sep' d x = x) :
    before sep d x = x := by
  induction x generalizing d with
  | nil => rfl
  | cons c x ih =>
    unfold before at h ⊢
    split at h
    next => simp at h
    next hcut =>
      have hcut' : ¬ cuts sep d c = true := by
        intro hc
        simp only [cuts, Bool.and_eq_true] at hc hcut
        exact hcut ⟨hc.1, hsep c hc.2⟩
      rw [if_neg hcut', ih (List.cons.inj h).2]

theorem before_of_not_mem {s : Char} (h : s ∉ x) : before (· == s) d x = x := by
  induction x generalizing d with
  | nil => rfl
  | cons c x ih =>
    simp only [List.mem_cons, not_or] at h
    unfold before
    rw [if_neg (by simp [cuts, Ne.symm h.1]), ih h.2]

/-- A character that is no separator stands in one of the pieces. -/
theorem mem_split_of_mem (hc : c ∈ t) (hs : sep c = false) :
    ∃ piece ∈ split sep d t, c ∈ piece := by
  induction t generalizing d with
  | nil => simp at hc
  | cons c' t ih =>
    unfold split
    split
    next hcut =>
      have hne : c ≠ c' := by
        rintro rfl
        simp [cuts, hs] at hcut
      obtain ⟨piece, hp, hmem⟩ := @ih d (by simpa [hne] using hc)
      exact ⟨piece, by simp [hp], hmem⟩
    next =>
      obtain ⟨pieces, ht⟩ := split_eq_cons sep (step d c') t
      rcases List.mem_cons.mp hc with rfl | hc
      · exact ⟨c :: before sep (step d c) t, by simp [ht], by simp⟩
      · obtain ⟨piece, hp, hmem⟩ := @ih (step d c') hc
        rw [ht] at hp ⊢
        rcases List.mem_cons.mp hp with rfl | hp
        · exact ⟨c' :: before sep (step d c') t, by simp, by simp [hmem]⟩
        · exact ⟨piece, by simp [hp], hmem⟩

end TripleSlash.Brackets
