import TripleSlash.Proofs.Declaration.Canonical
import TripleSlash.Proofs.Declaration.Extended
import TripleSlash.Proofs.Text.Preferred

/-! The words at the start of a declaration. A shape takes its access modifier and its modifiers off
the words that stand there, in order, and goes on with the text that is left. -/
namespace TripleSlash.Shape

open Pattern

variable {t line rest x : Text} {m : Reading Part} {p q : LinePattern} {s : String}
  {more : List String} {words : List Text} {ws lead : List SpacedWord}

/-- A text that is one word. -/
def IsWord (x : Text) : Prop := x ≠ [] ∧ ∀ c ∈ x, isWord c = true

instance (x : Text) : Decidable (IsWord x) :=
  decidable_of_iff (x ≠ [] ∧ x.all isWord = true) (by simp [IsWord])

theorem mem_oneOf {ps : List LinePattern} (h : m ∈ (oneOf p ps).readings t) :
    ∃ q ∈ p :: ps, m ∈ q.readings t := by
  induction ps generalizing p with
  | nil => exact ⟨p, by simp, h⟩
  | cons q ps ih =>
    rcases List.mem_append.mp h with h | h
    · exact ⟨p, by simp, h⟩
    · obtain ⟨q', hq, hm⟩ := ih h
      exact ⟨q', List.mem_cons_of_mem p hq, hm⟩

theorem mem_readings_oneOf {ps : List LinePattern} (hq : q ∈ p :: ps) (h : m ∈ q.readings t) :
    m ∈ (oneOf p ps).readings t := by
  induction ps generalizing p with
  | nil =>
    obtain rfl : q = p := by simpa using hq
    exact h
  | cons p' ps ih =>
    rcases List.mem_cons.mp hq with rfl | hq
    · exact List.mem_append_left _ h
    · exact List.mem_append_right _ (ih hq)

theorem mem_part {label : Part} (h : m ∈ (part label p).readings t) :
    ∃ m' ∈ p.readings t, ∃ x, t = x ++ m'.rest ∧ m = ⟨(label, x) :: m'.parts, m'.rest⟩ := by
  simp only [readings, List.mem_map] at h
  obtain ⟨m', h', rfl⟩ := h
  obtain ⟨x, rfl, -⟩ := takes_of_mem h'
  exact ⟨m', h', x, rfl, by rw [take_length_sub]⟩

theorem mem_anyWord (h : m ∈ (anyWord s more).readings t) :
    ∃ v ∈ s :: more, t = v.toList ++ m.rest := by
  obtain ⟨p, hp, hm⟩ := mem_oneOf h
  obtain ⟨v, hv, rfl⟩ : ∃ v ∈ s :: more, p = word v := by simpa [eq_comm] using hp
  exact ⟨v, hv, mem_text hm⟩

/-- Blanks behind a word make it a spaced word. -/
theorem mem_space (hx : IsWord x) (h : m ∈ space.readings t) :
    ∃ w : SpacedWord, w.word.text = x ∧ x ++ t = w.word.text ++ (w.space.text ++ m.rest) ∧
      Text.Stops isBlank m.rest := by
  obtain ⟨g, hg, hstop⟩ := mem_run1 h
  exact ⟨⟨⟨⟨x, hx.2⟩, hx.1⟩, g⟩, rfl, by rw [hg], hstop⟩

/-- Modifiers are spaced words of their list. -/
theorem mem_modifiers (hwords : ∀ v ∈ s :: more, IsWord v.toList) (ht : Text.Stops isBlank t)
    (h : m ∈ (modifiers s more).readings t) :
    ∃ ws, t = SpacedWord.line ws ++ m.rest ∧ Text.Stops isBlank m.rest ∧
      ∀ w ∈ ws, ∃ v ∈ s :: more, w.word.text = v.toList := by
  revert ht
  refine star_induction (P := fun t m => Text.Stops isBlank t → ∃ ws,
    t = SpacedWord.line ws ++ m.rest ∧ Text.Stops isBlank m.rest ∧
      ∀ w ∈ ws, ∃ v ∈ s :: more, w.word.text = v.toList) ?_ ?_ h
  · intro t ht
    exact ⟨[], rfl, ht, by simp⟩
  · intro t m hm m' ih _
    obtain ⟨m₁, h₁, m₂, h₂, rfl⟩ := mem_seq hm
    obtain ⟨v, hv, rfl⟩ := mem_anyWord h₁
    obtain ⟨w, hw, hline, hstop⟩ := mem_space (hwords v hv) h₂
    obtain ⟨ws, hws, hrest, hall⟩ := ih hstop
    refine ⟨w :: ws, ?_, hrest, ?_⟩
    · have hws : m₂.rest = SpacedWord.line ws ++ m'.rest := hws
      rw [hline, hws]
      simp [Reading.after]
    · intro u hu
      rcases List.mem_cons.mp hu with rfl | hu
      · exact ⟨v, hv, hw⟩
      · exact hall u hu

theorem mem_indent (h : m ∈ indent.readings t) :
    m.rest = t.dropWhile isIndent ∧ ∃ x, m.parts = [(.indent, x)] := by
  simp only [indent, readings, List.map_cons, List.map_nil, List.mem_singleton] at h
  subst h
  exact ⟨rfl, _, rfl⟩

/-- One word, or two with blanks between them. -/
def phrase : List Text → LinePattern
  | [] => done
  | [a] => text a
  | a :: b :: _ => all [text a, space, text b]

/-- The forms of access modifiers, in the order in which they are tried. -/
def formOrder : List (List Text) :=
  [["public"], ["internal", "protected"], ["internal"], ["protected", "internal"],
   ["protected", "private"], ["protected"], ["private", "protected"], ["private"]]

theorem access_eq : access =
    part .access (oneOf (phrase ["public"]) (formOrder.tail.map phrase)) := rfl

theorem mem_phrase {vs : List Text} (hvs : vs ∈ Access.forms.map (·.1))
    (h : m ∈ (phrase vs).readings t) :
    ∃ ws x, IsWord x ∧ SpacedWord.words ws ++ [x] = vs ∧
      t = SpacedWord.line ws ++ (x ++ m.rest) := by
  have hforms : ∀ vs ∈ Access.forms.map (·.1), (vs.length = 1 ∨ vs.length = 2) ∧
      ∀ v ∈ vs, IsWord v := by decide
  obtain ⟨hlength, hwords⟩ := hforms vs hvs
  match vs, hlength, hwords, h with
  | [a], _, hwords, h => exact ⟨[], a, hwords a (by simp), rfl, mem_text h⟩
  | [a, b], _, hwords, h =>
    obtain ⟨m₁, h₁, m₂, h₂, rfl⟩ := mem_seq h
    obtain ⟨m₃, h₃, m₄, h₄, rfl⟩ := mem_seq h₂
    obtain ⟨m₅, h₅, m₆, h₆, rfl⟩ := mem_seq h₄
    obtain rfl : m₆ = ⟨[], m₅.rest⟩ := by simpa [readings] using h₆
    obtain ⟨w, hw, hline, -⟩ := mem_space (hwords a (by simp)) h₃
    refine ⟨[w], b, hwords b (by simp), by simp [hw], ?_⟩
    rw [mem_text h₁, hline, mem_text h₅]
    simp [Reading.after]

/-- An access modifier is read in one of its forms. -/
theorem mem_access (h : m ∈ access.readings t) :
    ∃ ws x, IsWord x ∧ SpacedWord.words ws ++ [x] ∈ Access.forms.map (·.1) ∧
      t = SpacedWord.line ws ++ (x ++ m.rest) ∧ m.parts = [(.access, SpacedWord.line ws ++ x)] := by
  obtain ⟨m', h', y, hy, rfl⟩ := mem_part (access_eq ▸ h)
  obtain ⟨p, hp, hm⟩ := mem_oneOf h'
  obtain ⟨vs, hvs, rfl⟩ : ∃ vs ∈ formOrder, phrase vs = p := List.mem_map.mp hp
  have hforms : ∀ vs ∈ formOrder, vs ∈ Access.forms.map (·.1) := by decide
  obtain ⟨ws, x, hx, hwords, ht⟩ := mem_phrase (hforms vs hvs) hm
  obtain rfl : y = SpacedWord.line ws ++ x := by
    refine List.append_cancel_right (hy.symm.trans (ht.trans ?_))
    rw [List.append_assoc]
  exact ⟨ws, x, hx, hwords ▸ hforms vs hvs, ht, by rw [parts_eq_nil (by decide) h']⟩

/-- A text that begins with a word, and with none of the given ones. -/
def Apart (words : List Text) (t : Text) : Prop :=
  t.takeWhile isWord ≠ [] ∧ t.takeWhile isWord ∉ words

instance (words : List Text) (t : Text) : Decidable (Apart words t) :=
  inferInstanceAs (Decidable (_ ∧ _))

theorem Apart.stops (h : Apart words t) : Text.Stops isBlank t := by
  cases t with
  | nil => exact absurd rfl h.1
  | cons c t =>
    rw [Text.stops_cons]
    by_contra hc
    have hword := isWord_eq_false_of_isBlank c (by simpa using hc)
    exact h.1 (by simp [hword])

theorem Apart.mono {words' : List Text} (h : Apart words t) (hsub : ∀ w ∈ words', w ∈ words) :
    Apart words' t := ⟨h.1, fun hmem => h.2 (hsub _ hmem)⟩

theorem takeWhile_spaced (w : SpacedWord) (t : Text) :
    (w.word.text ++ (w.space.text ++ t)).takeWhile isWord = w.word.text :=
  Text.takeWhile_stretch w.word.all (w.space.stops isWord_eq_false_of_isBlank t)

theorem Apart.line_ne (h : Apart words t) (ws : List SpacedWord) :
    (SpacedWord.line ws ++ t).takeWhile isWord ≠ [] := by
  cases ws with
  | nil => exact h.1
  | cons w ws =>
    rw [SpacedWord.line_cons, List.append_assoc, List.append_assoc, takeWhile_spaced]
    exact w.word.ne

theorem Apart.behind (h : Apart words t) (hws : ∀ w ∈ ws, w.word.text ∉ words) :
    Apart words (SpacedWord.line ws ++ t) := by
  cases ws with
  | nil => exact h
  | cons w ws =>
    rw [SpacedWord.line_cons, List.append_assoc, List.append_assoc, Apart, takeWhile_spaced]
    exact ⟨w.word.ne, hws w (by simp)⟩

theorem dropWhile_spaced (w : SpacedWord) (ht : Text.Stops isBlank t) :
    ((w.word.text ++ (w.space.text ++ t)).dropWhile isWord).dropWhile isBlank = t := by
  rw [Text.dropWhile_stretch w.word.all (w.space.stops isWord_eq_false_of_isBlank t),
    Text.dropWhile_stretch w.space.all ht]

/-- Words that are taken off in front of a word apart are the first of those that stand there. -/
theorem Apart.taken (hrest : Apart words rest) (ht : Text.Stops isBlank t)
    (hws : ∀ w ∈ ws, w.word.text ∈ words)
    (h : SpacedWord.line ws ++ t = SpacedWord.line lead ++ rest) :
    ∃ left, lead = ws ++ left ∧ t = SpacedWord.line left ++ rest := by
  rcases SpacedWord.line_append_inj ht hrest.stops h with h | ⟨beyond, rfl, hbeyond⟩
  · exact h
  · cases beyond with
    | nil => exact ⟨[], by simp, by simpa using hbeyond.symm⟩
    | cons w beyond =>
      refine absurd (hws w (by simp)) ?_
      have hfirst := hrest.2
      rwa [hbeyond, SpacedWord.line_cons, List.append_assoc, List.append_assoc,
        takeWhile_spaced] at hfirst

/-- Modifiers are read off the words in front of a word apart. -/
theorem mem_modifiers_lead (hrest : Apart words rest)
    (hwords : ∀ v ∈ s :: more, IsWord v.toList ∧ v.toList ∈ words)
    (h : m ∈ (modifiers s more).readings (SpacedWord.line lead ++ rest)) :
    ∃ used left, lead = used ++ left ∧ m.rest = SpacedWord.line left ++ rest := by
  obtain ⟨ws, hline, hstop, hall⟩ := mem_modifiers (fun v hv => (hwords v hv).1)
    (SpacedWord.stops_line_append lead hrest.stops) h
  have hws : ∀ w ∈ ws, w.word.text ∈ words := by
    intro w hw
    obtain ⟨v, hv, he⟩ := hall w hw
    exact he ▸ (hwords v hv).2
  obtain ⟨left, hlead, hm⟩ := hrest.taken hstop hws hline.symm
  exact ⟨ws, left, hlead, hm⟩

/-- Every shape takes its indent and its access modifier off the start of the line. -/
theorem mem_access_lead {ps : List LinePattern}
    (hline : line.dropWhile isIndent = SpacedWord.line lead ++ rest) (hrest : Apart words rest)
    (hwords : ∀ v ∈ Canonical.accessWords, v ∈ words)
    (h : m ∈ (all (indent :: access :: space :: ps)).readings line) :
    ∃ used left, lead = used ++ left ∧ ∃ m' ∈ (all ps).readings (SpacedWord.line left ++ rest),
      m'.rest = m.rest ∧ ∃ x y, m.parts = (.indent, x) :: (.access, y) :: m'.parts := by
  obtain ⟨m₁, h₁, m₂, h₂, rfl⟩ := mem_seq h
  obtain ⟨m₃, h₃, m₄, h₄, rfl⟩ := mem_seq h₂
  obtain ⟨m₅, h₅, m₆, h₆, rfl⟩ := mem_seq h₄
  obtain ⟨hindent, x, hx⟩ := mem_indent h₁
  obtain ⟨ws, v, hv, hform, ht, hy⟩ := mem_access h₃
  obtain ⟨w, hw, hspaced, hstop⟩ := mem_space hv h₅
  have hused : ∀ u ∈ ws ++ [w], u.word.text ∈ words := by
    intro u hu
    have hforms : ∀ f ∈ Access.forms.map (·.1), ∀ v ∈ f, v ∈ Canonical.accessWords := by decide
    have hmem : SpacedWord.words (ws ++ [w]) ∈ Access.forms.map (·.1) := by simpa [hw] using hform
    exact hwords _ (hforms _ hmem _ (List.mem_map_of_mem hu))
  have hjoined : SpacedWord.line (ws ++ [w]) ++ m₅.rest = SpacedWord.line lead ++ rest := by
    rw [← hline, ← hindent, ht, hspaced]
    simp
  obtain ⟨left, hlead, hleft⟩ := hrest.taken hstop hused hjoined
  have hsilent : m₅.parts = [] := parts_eq_nil (p := space) (by decide) h₅
  refine ⟨ws ++ [w], left, hlead, m₆, hleft ▸ h₆, rfl, x, SpacedWord.line ws ++ v, ?_⟩
  simp [Reading.after, hx, hy, hsilent]

/-- A type needs its keyword among the words at the start. -/
theorem typeLine_eq_nil (hline : line.dropWhile isIndent = SpacedWord.line lead ++ rest)
    (hrest : Apart Canonical.keywords rest)
    (hlead : ∀ w ∈ lead, w.word.text ∉ TypeKeyword.all.map (·.spelling)) :
    typeLine.readings line = [] := by
  apply List.eq_nil_iff_forall_not_mem.mpr
  intro m hm
  obtain ⟨used, left, rfl, m', hm', -⟩ := mem_access_lead hline hrest (by decide) hm
  obtain ⟨m₁, h₁, m₂, h₂, rfl⟩ := mem_seq hm'
  obtain ⟨used', left', rfl, hleft⟩ := mem_modifiers_lead hrest (by decide) h₁
  obtain ⟨m₃, h₃, m₄, h₄, rfl⟩ := mem_seq h₂
  obtain ⟨m₅, h₅, m₆, h₆, rfl⟩ := mem_seq h₄
  simp only [readings, List.mem_map] at h₃
  obtain ⟨m₇, h₇, rfl⟩ := h₃
  obtain ⟨v, hv, ht⟩ := mem_anyWord h₇
  have hkinds : ∀ v ∈ "class" :: ["interface", "struct", "enum"],
      IsWord v.toList ∧ v.toList ∈ TypeKeyword.all.map (·.spelling) ∧
        v.toList ∈ Canonical.keywords := by decide
  obtain ⟨hword, hkind, hkeyword⟩ := hkinds v hv
  obtain ⟨w, hw, hspaced, -⟩ := mem_space hword h₅
  -- The keyword is the first of the words that are left, or the word apart itself.
  have hfirst : (SpacedWord.line left' ++ rest).takeWhile isWord = v.toList := by
    rw [← hleft, ht, hspaced, takeWhile_spaced, hw]
  cases left' with
  | nil => exact hrest.2 (hfirst ▸ hkeyword)
  | cons u left' =>
    rw [SpacedWord.line_cons, List.append_assoc, List.append_assoc, takeWhile_spaced] at hfirst
    exact hlead u (by simp) (hfirst ▸ hkind)

/-- A constructor has its parenthesis behind the first word that is no access modifier. -/
theorem mem_constructorLine (hline : line.dropWhile isIndent = SpacedWord.line lead ++ rest)
    (hrest : Apart words rest) (hwords : ∀ v ∈ Canonical.accessWords, v ∈ words)
    (h : m ∈ constructorLine.readings line) :
    (rest.dropWhile isWord).dropWhile isBlank = '(' :: m.rest ∧
      m.text .name = rest.takeWhile isWord := by
  obtain ⟨used, left, rfl, m', hm', hm, x, y, hparts⟩ := mem_access_lead hline hrest hwords h
  obtain ⟨m₁, h₁, m₂, h₂, rfl⟩ := mem_seq hm'
  obtain ⟨m₃, h₃, m₄, h₄, rfl⟩ := mem_seq h₂
  obtain ⟨m₅, h₅, m₆, h₆, rfl⟩ := mem_seq h₄
  obtain rfl : m₆ = ⟨[], m₅.rest⟩ := by simpa [readings] using h₆
  obtain ⟨m₇, h₇, z, hz, rfl⟩ := mem_part h₁
  obtain ⟨n, hn, hstop⟩ := mem_run1 h₇
  obtain ⟨g, hg, hstop'⟩ := mem_run h₃
  obtain rfl : z = n.text := List.append_cancel_right (hz.symm.trans hn)
  have hparen : m₃.rest = '(' :: m.rest := by rw [mem_text h₅, ← hm]; rfl
  have hafter : ((SpacedWord.line left ++ rest).dropWhile isWord).dropWhile isBlank =
      '(' :: m.rest := by
    rw [hz, Text.dropWhile_stretch n.all hstop, ← hparen]
    exact hg ▸ Text.dropWhile_stretch g.all hstop'
  cases left with
  | nil =>
    refine ⟨by simpa using hafter, ?_⟩
    have hname : m.text .name = n.text := by
      rw [Reading.text, hparts]
      rfl
    have hfirst := Text.takeWhile_stretch n.all hstop
    rw [← hz] at hfirst
    exact hname.trans hfirst.symm
  | cons w left =>
    rw [SpacedWord.line_cons, List.append_assoc, List.append_assoc,
      dropWhile_spaced w (SpacedWord.stops_line_append left hrest.stops)] at hafter
    exact absurd (congrArg (·.takeWhile isWord) hafter) (hrest.line_ne left)

end TripleSlash.Shape
