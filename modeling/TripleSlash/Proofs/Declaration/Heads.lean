import TripleSlash.Proofs.Declaration.Leading

/-! How the words at the start of a line are read: the access modifier as one word or two, and every
modifier that stands there. -/
namespace TripleSlash.Shape

open Pattern

variable {ok : Text → Bool} {x y t : Text} {parts : List (Part × Text)} {p q : LinePattern}
  {w : SpacedWord} {ws : List SpacedWord} {s a b : String} {more : List String}

theorem IsWord.stops (h : IsWord x) (t : Text) : Text.Stops isBlank (x ++ t) :=
  (⟨⟨x, h.2⟩, h.1⟩ : Stretch1 isWord).stops isBlank_eq_false_of_isWord t

/-- What is left has to begin with a blank. -/
def NeedsBlank (ok : Text → Bool) : Prop := ∀ t, Text.Stops isBlank t → ok t = false

theorem needsBlank_space (q : LinePattern) (ok : Text → Bool) :
    NeedsBlank ((seq space q).leaves ok) := by
  intro t ht
  exact leaves_eq_false (readings_seq_eq_nil fun m hm => by
    simp [space, readings_run1_eq_nil ht] at hm)

theorem NeedsBlank.blank (hok : NeedsBlank ok) (ht : ok t = true) :
    ∃ g : Stretch1 isBlank, ∃ r, t = g.text ++ r ∧ Text.Stops isBlank r := by
  refine ⟨⟨⟨t.takeWhile isBlank, List.all_eq_true.mp List.all_takeWhile⟩, ?_⟩,
    t.dropWhile isBlank, by simp, Text.stops_dropWhile isBlank t⟩
  intro hnone
  have hstop : Text.Stops isBlank t := by
    have h := Text.stops_dropWhile isBlank t
    have hcut := List.takeWhile_append_dropWhile (p := isBlank) (l := t)
    rwa [← hcut, show t.takeWhile isBlank = [] from hnone]
  simp [hok t hstop] at ht

/-- A form is not read where other words stand. -/
theorem phrase_leaves_eq_false {vs : List Text} (hok : NeedsBlank ok)
    (hy : Apart Canonical.accessWords y) (hvs : vs ∈ Access.forms.map (·.1))
    (hne : ¬ vs <+: SpacedWord.words ws) :
    (phrase vs).leaves ok (SpacedWord.line ws ++ y) = false := by
  rw [leaves, List.any_eq_false]
  intro m hm hrest
  obtain ⟨us, x, hx, rfl, ht⟩ := mem_phrase hvs hm
  obtain ⟨g, t, hg, hstop⟩ := hok.blank hrest
  have hused : ∀ u ∈ us ++ [⟨⟨⟨x, hx.2⟩, hx.1⟩, g⟩], u.word.text ∈ Canonical.accessWords := by
    intro u hu
    have hforms : ∀ f ∈ Access.forms.map (·.1), ∀ v ∈ f, v ∈ Canonical.accessWords := by decide
    rcases List.mem_append.mp hu with hu | hu
    · exact hforms _ hvs _ (List.mem_append_left _ (List.mem_map_of_mem hu))
    · obtain rfl := List.mem_singleton.mp hu
      exact hforms _ hvs _ (by simp)
  have hjoined : SpacedWord.line (us ++ [⟨⟨⟨x, hx.2⟩, hx.1⟩, g⟩]) ++ t =
      SpacedWord.line ws ++ y := by
    rw [ht, hg]
    simp
  obtain ⟨left, rfl, -⟩ := hy.taken hstop hused hjoined
  exact hne ⟨SpacedWord.words left, by simp⟩

theorem picks_oneOf {ps : List LinePattern} (before after : List LinePattern)
    (h : Picks q ok x y parts) (hps : p :: ps = before ++ q :: after)
    (hbefore : ∀ p ∈ before, p.leaves ok (x ++ y) = false) :
    Picks (oneOf p ps) ok x y parts := by
  induction before generalizing p ps with
  | nil =>
    obtain ⟨rfl, rfl⟩ := List.cons_eq_cons.mp hps
    cases ps with
    | nil => exact h
    | cons q' ps => exact picks_first h _
  | cons p' before ih =>
    obtain ⟨rfl, rfl⟩ := List.cons_eq_cons.mp hps
    cases before with
    | nil => exact picks_second (hbefore p (by simp)) (ih rfl (by simp))
    | cons p' before =>
      exact picks_second (hbefore p (by simp)) (ih rfl fun p hp => hbefore p (by simp_all))

theorem fields_words (ws : List SpacedWord) (hx : IsWord x) :
    Text.fields isBlank (SpacedWord.line ws ++ x) = SpacedWord.words ws ++ [x] := by
  have hone := Text.fields_append (p := isBlank) (y := []) hx.1
    (fun c hc => isBlank_eq_false_of_isWord c (hx.2 c hc)) (by simp)
  rw [SpacedWord.fields_line_append]
  simpa [Text.fields, Text.splitAtChars] using hone

/-- The words of an access modifier are read up to the last blanks. -/
theorem access_text (a : Canonical.AccessText) : ∃ z, ∃ g : Stretch1 isBlank,
    SpacedWord.line a.words = z ++ g.text ∧ Access.parse? z = some a.modifier ∧
      ∀ ok y, ok y = true → Picks (phrase (SpacedWord.words a.words)) ok z y [] := by
  have form := a.mem_forms
  obtain ⟨ws, modifier, written⟩ := a
  dsimp only at form ⊢
  clear written
  have hlength : ∀ f ∈ Access.forms, f.1.length = 1 ∨ f.1.length = 2 := by decide
  have hlookup : ∀ f ∈ Access.forms, Access.forms.lookup f.1 = some f.2 := by decide
  have hparse := hlookup _ form
  match ws, hlength _ form with
  | [w], _ =>
    refine ⟨w.word.text, w.space, by simp, ?_, fun ok y hy => picks_of_read? (read?_text _ _) hy⟩
    have hfields := fields_words [] ⟨w.word.ne, w.word.all⟩
    rw [Access.parse?, ← hparse]
    exact congrArg (List.lookup · Access.forms) hfields
  | [v, w], _ =>
    refine ⟨v.word.text ++ (v.space.text ++ (w.word.text ++ [])), w.space, by simp, ?_, ?_⟩
    · have hfields := fields_words [v] ⟨w.word.ne, w.word.all⟩
      rw [Access.parse?, ← hparse]
      exact congrArg (List.lookup · Access.forms) (by simpa using hfields)
    · intro ok y hy
      refine picks_skip (read?_text _ _) (picks_skip ?_
        (picks_skip (read?_text _ _) (picks_done hy)))
      refine read?_run1 v.space ?_
      rw [List.append_assoc]
      exact w.word.stops isBlank_eq_false_of_isWord _

/-- Two words are preferred to one, but only where both of them stand. -/
theorem picks_access (a : Canonical.AccessText) (hok : NeedsBlank ok)
    (hy : ∀ g : Stretch1 isBlank, ok (g.text ++ y) = true) (ht : Apart Canonical.accessWords y) :
    ∃ z, ∃ g : Stretch1 isBlank, SpacedWord.line a.words = z ++ g.text ∧
      Access.parse? z = some a.modifier ∧ Picks access ok z (g.text ++ y) [(.access, z)] := by
  obtain ⟨z, g, hline, hparse, hpicks⟩ := access_text a
  rw [access_eq]
  refine ⟨z, g, hline, hparse, picks_part ?_ _⟩
  have hform : SpacedWord.words a.words ∈ Access.forms.map (·.1) := List.mem_map_of_mem a.mem_forms
  have hfirst : ∀ f ∈ Access.forms.map (·.1), formOrder.find? (· <+: f) = some f := by decide
  obtain ⟨-, before, after, horder, hbefore⟩ :=
    List.find?_eq_some_iff_append.mp (hfirst _ hform)
  refine picks_oneOf (before.map phrase) (after.map phrase)
    (hpicks ok _ (hy g)) ?_ ?_
  · have hmap := congrArg (List.map phrase) horder
    rwa [List.map_append, List.map_cons] at hmap
  · intro p hp
    obtain ⟨vs, hvs, rfl⟩ := List.mem_map.mp hp
    have hforms : ∀ f ∈ formOrder, f ∈ Access.forms.map (·.1) := by decide
    rw [← List.append_assoc, ← hline]
    refine phrase_leaves_eq_false hok ht (hforms vs (horder ▸ List.mem_append_left _ hvs)) ?_
    simpa using hbefore vs hvs

theorem silent_anyWord (s : String) (more : List String) : (anyWord s more).silent = true := by
  have h : ∀ (p : LinePattern) ps, (∀ q ∈ p :: ps, q.silent = true) →
      (oneOf p ps).silent = true := by
    intro p ps hq
    induction ps generalizing p with
    | nil => exact hq p (by simp)
    | cons q ps ih =>
      have hrest := ih q fun q' hq' => hq q' (List.mem_cons_of_mem p hq')
      simp [oneOf, silent, hq p (by simp), hrest]
  refine h _ _ fun q hq => ?_
  obtain ⟨v, -, rfl⟩ : ∃ v ∈ s :: more, word v = q := List.mem_map.mp hq
  exact silent_text _

/-- A modifier is read whole, with the blanks behind it. -/
theorem read?_modifier (hwords : ∀ v ∈ s :: more, IsWord v.toList)
    (hw : ∃ v ∈ s :: more, v.toList = w.word.text) (hy : Text.Stops isBlank y) :
    (seq (anyWord s more) space).read? (w.word.text ++ (w.space.text ++ y)) = some ⟨[], y⟩ := by
  refine read?_of_unique ?_ ?_
  · obtain ⟨v, hv, he⟩ := hw
    have hword : ⟨[], w.space.text ++ y⟩ ∈
        (anyWord s more).readings (w.word.text ++ (w.space.text ++ y)) := by
      refine mem_readings_oneOf (List.mem_map_of_mem (l := s :: more) hv) ?_
      exact he ▸ mem_readings_of_read? (read?_text _ _)
    exact mem_readings_seq hword (mem_readings_of_read? (read?_run1 w.space hy))
  · intro m hm
    have hparts := parts_eq_nil (by simp [silent, silent_anyWord, space, run1]) hm
    obtain ⟨m₁, h₁, m₂, h₂, rfl⟩ := mem_seq hm
    obtain ⟨v, hv, ht⟩ := mem_anyWord h₁
    obtain ⟨w', -, hline, hstop⟩ := mem_space (hwords v hv) h₂
    obtain ⟨-, hrest⟩ := SpacedWord.text_inj hy hstop (ht.trans hline)
    rw [Reading.mk.injEq]
    exact ⟨hparts, hrest.symm⟩

theorem readings_modifier_eq_nil (hwords : ∀ v ∈ s :: more, IsWord v.toList)
    (hy : Apart ((s :: more).map (·.toList)) y) : (seq (anyWord s more) space).readings y = [] := by
  refine readings_seq_eq_nil fun m hm => List.eq_nil_iff_forall_not_mem.mpr fun m' hm' => ?_
  obtain ⟨v, hv, ht⟩ := mem_anyWord hm
  obtain ⟨w, hw, hline, -⟩ := mem_space (hwords v hv) hm'
  apply hy.2
  rw [ht, hline, takeWhile_spaced, hw]
  exact List.mem_map_of_mem hv

/-- All the modifiers that stand in front of another word are read. -/
theorem read?_modifiers (hwords : ∀ v ∈ s :: more, IsWord v.toList)
    (hws : ∀ w ∈ ws, ∃ v ∈ s :: more, v.toList = w.word.text)
    (hy : Apart ((s :: more).map (·.toList)) y) :
    (modifiers s more).read? (SpacedWord.line ws ++ y) = some ⟨[], y⟩ := by
  induction ws with
  | nil => exact read?_star_none (readings_modifier_eq_nil hwords hy)
  | cons w ws ih =>
    have hstop := SpacedWord.stops_line_append ws hy.stops
    have hone := read?_modifier hwords (hws w (by simp)) hstop
    rw [SpacedWord.line_cons, List.append_assoc, List.append_assoc]
    exact read?_star (by simp [moves, space, run1]) hone (ih fun w hw => hws w (by simp [hw]))

end TripleSlash.Shape
