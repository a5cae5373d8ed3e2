import TripleSlash.Proofs.Declaration.Types

/-! How the accessors of a property are read. Each one may be missing, and the next one is not taken
for it. -/
namespace TripleSlash.Shape

open Pattern Canonical

variable {p q : LinePattern} {r : Char → Bool} {m : Reading Part} {x t : Text}
  {parts : List (Part × Text)} {s : String}

/-- Behind blanks an optional pattern that cannot be read is passed over. -/
theorem read?_missing (g : Stretch isBlank) (ht : Text.Stops isBlank t) (hp : p.readings t = [])
    (hq : q.read? t = some m) : (seq gap (seq (opt p) q)).read? (g.text ++ t) = some m :=
  read?_skip (read?_run g.all ht) (read?_skip (read?_opt_none hp) hq)

/-- Behind blanks an optional pattern that can be read is read. -/
theorem read?_present (g : Stretch isBlank) (hx : Text.Stops isBlank (x ++ t))
    (hp : p.read? (x ++ t) = some ⟨parts, t⟩) (hq : q.read? t = some m) :
    (seq gap (seq (opt p) q)).read? (g.text ++ (x ++ t)) = some (m.after parts) :=
  read?_skip (read?_run g.all hx) (read?_seq (read?_opt hp) hq)

/-- An accessor, perhaps with a modifier. -/
def modified (s : String) : LinePattern :=
  seq (opt (seq (anyWord "private" ["protected", "internal"]) space)) (word s)

/-- An accessor's word and the semicolon behind it. -/
structure IsAccessor (s : String) (v : Text) : Prop where
  word : IsWord v
  apart : v ∉ accessorModifiers
  text : s.toList = v ++ [';']

theorem isAccessor_set : IsAccessor "set;" "set" := ⟨by decide, by decide, rfl⟩

theorem isAccessor_init : IsAccessor "init;" "init" := ⟨by decide, by decide, rfl⟩

theorem IsAccessor.takeWhile {v : Text} (hs : IsAccessor s v) (t : Text) :
    (s.toList ++ t).takeWhile isWord = v := by
  have hstop : Text.Stops isWord (';' :: t) := Text.stops_cons.mpr (by decide)
  have h := Text.takeWhile_stretch hs.word.2 hstop
  simpa [hs.text] using h

theorem IsAccessor.begins {v : Text} (hs : IsAccessor s v) (t : Text) :
    Apart accessorModifiers (s.toList ++ t) := by
  rw [Apart, hs.takeWhile]
  exact ⟨hs.word.1, hs.apart⟩

theorem mem_modified (h : m ∈ (modified s).readings t) : ∃ ws : List SpacedWord,
    (∀ w ∈ ws, w.word.text ∈ accessorModifiers) ∧
      t = SpacedWord.line ws ++ (s.toList ++ m.rest) := by
  obtain ⟨m₁, h₁, m₂, h₂, rfl⟩ := mem_seq h
  have hrest : m₁.rest = s.toList ++ m₂.rest := mem_text h₂
  rcases mem_opt h₁ with h₁ | rfl
  · obtain ⟨m₃, h₃, m₄, h₄, rfl⟩ := mem_seq h₁
    obtain ⟨v, hv, rfl⟩ := mem_anyWord h₃
    have hwords : ∀ v ∈ "private" :: ["protected", "internal"],
        IsWord v.toList ∧ v.toList ∈ accessorModifiers := by decide
    obtain ⟨w, hw, hline, -⟩ := mem_space (hwords v hv).1 h₄
    have hr : m₄.rest = s.toList ++ m₂.rest := hrest
    refine ⟨[w], ?_, ?_⟩
    · simpa [hw] using (hwords v hv).2
    · rw [hline, hr]
      simp [Reading.after]
  · exact ⟨[], by simp, hrest⟩

theorem modified_eq_nil {v : Text} (hs : IsAccessor s v) (ht : t.takeWhile isWord = []) :
    (modified s).readings t = [] := by
  apply List.eq_nil_iff_forall_not_mem.mpr
  intro m hm
  obtain ⟨ws, -, hline⟩ := mem_modified hm
  exact (hs.begins m.rest).line_ne ws (hline ▸ ht)

/-- One accessor is not read for another. -/
theorem modified_eq_nil_of_ne {s' : String} {v v' : Text} (hs : IsAccessor s v)
    (hs' : IsAccessor s' v') (hne : v ≠ v') {ws : List SpacedWord}
    (hws : ∀ w ∈ ws, w.word.text ∈ accessorModifiers) (t : Text) :
    (modified s).readings (SpacedWord.line ws ++ (s'.toList ++ t)) = [] := by
  apply List.eq_nil_iff_forall_not_mem.mpr
  intro m hm
  obtain ⟨us, hus, hline⟩ := mem_modified hm
  have hbegins := hs.begins m.rest
  have hbegins' := hs'.begins t
  obtain ⟨left, hleft, hrest⟩ := hbegins'.taken hbegins.stops hus hline.symm
  obtain ⟨left', hleft', -⟩ := hbegins.taken hbegins'.stops hws hline
  obtain rfl : left = [] := by
    have hlength := congrArg List.length (hleft.trans (congrArg (· ++ left) hleft'))
    simp only [List.length_append] at hlength
    exact List.eq_nil_of_length_eq_zero (by omega)
  have hfirst := congrArg (·.takeWhile isWord) hrest
  simp only [SpacedWord.line_nil, List.nil_append, hs.takeWhile, hs'.takeWhile] at hfirst
  exact hne hfirst

theorem read?_modified {v : Text} (hs : IsAccessor s v) (k : Option (Keyword accessorModifiers))
    (t : Text) : (modified s).read? (modifierText k.toList ++ s.toList ++ t) = some ⟨[], t⟩ := by
  have hbegins := hs.begins t
  rw [List.append_assoc]
  cases k with
  | none =>
    exact read?_skip (read?_opt_none (readings_modifier_eq_nil (by decide) hbegins))
      (read?_text _ t)
  | some k =>
    have hmem : ∃ v ∈ "private" :: ["protected", "internal"], v.toList = k.word.text :=
      List.mem_map.mp k.mem
    have h := read?_skip (read?_opt (read?_modifier (by decide) hmem hbegins.stops))
      (read?_text s.toList t)
    have htext : modifierText (some k).toList ++ (s.toList ++ t) =
        k.word.text ++ (k.space.text ++ (s.toList ++ t)) := by simp [modifierText]
    exact htext ▸ h

/-- An accessor is read where it stands, and passed over where it is missing. -/
theorem read?_accessor {v : Text} (label : Part) (hs : IsAccessor s v) (g : Stretch isBlank)
    (a : Option AccessorText) (ht : Text.Stops isBlank t)
    (hnone : a = none → (modified s).readings t = [])
    (hq : ∀ g : Stretch isBlank, q.read? (g.text ++ t) = some m) :
    (seq gap (seq (accessor label s) q)).read? (g.text ++ (accessorText s a ++ t)) =
      some (m.after
        (a.map fun a => (label, modifierText a.modifier.toList ++ s.toList)).toList) := by
  cases a with
  | none =>
    have hpart : (part label (modified s)).readings t = [] := by simp [readings, hnone rfl]
    exact read?_missing g ht hpart (hq ⟨[], by simp⟩)
  | some a =>
    have hpart := read?_part (read?_modified hs a.modifier (a.gap.text ++ t)) label
    have hstop := SpacedWord.stops_line_append (a.modifier.toList.map (·.toSpacedWord))
      (hs.begins (a.gap.text ++ t)).stops
    rw [accessorText, List.append_assoc _ a.gap.text t]
    refine read?_present g ?_ hpart (hq a.gap)
    rw [List.append_assoc]
    exact hstop

theorem stops_accessorText {word : Text} (hp : r 'p' = false) (hi : r 'i' = false)
    (hne : word ≠ []) (hword : Text.Stops r word) (a : Option AccessorText) :
    Text.Stops r (accessorText word a) := by
  cases a with
  | none => exact Text.stops_nil
  | some a =>
    have hfirst : ∀ v ∈ accessorModifiers, v.head? = some 'p' ∨ v.head? = some 'i' := by decide
    have hmodifier : Text.Stops r (modifierText a.modifier.toList) := by
      cases a.modifier with
      | none => exact Text.stops_nil
      | some k =>
        have hk : Text.Stops r k.word.text := by
          intro c hc
          rcases hfirst _ k.mem with hv | hv
          · obtain rfl : 'p' = c := by simpa [hv] using hc
            exact hp
          · obtain rfl : 'i' = c := by simpa [hv] using hc
            exact hi
        simpa [modifierText, Text.stops_append k.word.ne] using hk
    rw [accessorText, Text.stops_append (List.append_ne_nil_of_right_ne_nil _ hne)]
    exact hmodifier.append hword

/-- In front of the closing brace a missing accessor is not read. -/
theorem modified_set_eq_nil (a : Option AccessorText) (t : Text) :
    (modified "set;").readings (accessorText "init;" a ++ '\x7d' :: t) = [] := by
  cases a with
  | none =>
    have hstop : Text.Stops isWord ('\x7d' :: t) := Text.stops_cons.mpr (by decide)
    exact modified_eq_nil isAccessor_set (Text.takeWhile_of_stops hstop)
  | some a =>
    have hws : ∀ w ∈ a.modifier.toList.map (·.toSpacedWord), w.word.text ∈ accessorModifiers := by
      intro w hw
      obtain ⟨k, -, rfl⟩ := List.mem_map.mp hw
      exact k.mem
    have h := modified_eq_nil_of_ne isAccessor_set isAccessor_init (by decide) hws
      (a.gap.text ++ '\x7d' :: t)
    simpa [accessorText, modifierText] using h

theorem stops_setters (hp : r 'p' = false) (hi : r 'i' = false) (hs : r 's' = false)
    (hbrace : r '\x7d' = false) (l : PropertyLine) : Text.Stops r l.setters :=
  (stops_accessorText hp hi (by decide) (Text.stops_cons.mpr hs) l.setter).append
    ((stops_accessorText hp hi (by decide) (Text.stops_cons.mpr hi) l.initer).append
      (Text.stops_cons.mpr hbrace))

/-- The accessors behind the getter. -/
def setters : LinePattern := all
  [gap, accessor .setter "set;", gap, accessor .initer "init;", gap, text "\x7d"]

/-- The accessors of a property. -/
def accessors : LinePattern := seq gap (seq (opt (part .getter (word "get;"))) setters)

/-- What is captured of an accessor. -/
def accessorPart (label : Part) (word : Text) (a : Option AccessorText) : List (Part × Text) :=
  (a.map fun a => (label, modifierText a.modifier.toList ++ word)).toList

theorem read?_setters (l : PropertyLine) (g : Stretch isBlank) :
    setters.read? (g.text ++ l.setters) =
      some ⟨accessorPart .setter "set;" l.setter ++ accessorPart .initer "init;" l.initer,
        l.rest⟩ := by
  have hbrace : Text.Stops isBlank ('\x7d' :: l.rest) := Text.stops_cons.mpr (by decide)
  have hclosed : ('\x7d' :: l.rest).takeWhile isWord = [] :=
    Text.takeWhile_of_stops (Text.stops_cons.mpr (by decide))
  have hend : ∀ g : Stretch isBlank, (all [gap, text "\x7d"] : LinePattern).read?
      (g.text ++ '\x7d' :: l.rest) = some ⟨[], l.rest⟩ := fun g =>
    read?_skip (read?_run g.all hbrace) (read?_skip (read?_text ['\x7d'] _) (read?_done _))
  have hiniter := fun g : Stretch isBlank => read?_accessor .initer isAccessor_init g l.initer
    hbrace (fun _ => modified_eq_nil isAccessor_init hclosed) hend
  have hinit : Text.Stops isBlank (accessorText "init;" l.initer ++ '\x7d' :: l.rest) :=
    (stops_accessorText (by decide) (by decide) (by decide) (Text.stops_cons.mpr (by decide))
      l.initer).append hbrace
  have h := read?_accessor .setter isAccessor_set g l.setter hinit
    (fun _ => modified_set_eq_nil l.initer l.rest) hiniter
  rw [PropertyLine.setters, setters]
  refine h.trans (congrArg some ?_)
  simp [Reading.after, accessorPart]

/-- What is captured of the accessors of a property. -/
def accessorParts (l : PropertyLine) : List (Part × Text) :=
  (l.getter.map fun _ => (Part.getter, "get;".toList)).toList ++
    (accessorPart .setter "set;" l.setter ++ accessorPart .initer "init;" l.initer)

/-- The accessors are captured as they stand there. -/
theorem read?_accessors (l : PropertyLine) :
    accessors.read? l.accessors = some ⟨accessorParts l, l.rest⟩ := by
  rw [PropertyLine.accessors, List.append_assoc, accessorParts]
  cases l.getter with
  | none =>
    have hget : (word "get;").readings l.setters = [] := readings_text_eq_nil (c := 'g')
      (stops_setters (by decide) (by decide) (by decide) (by decide) l)
    have hnone : (part .getter (word "get;")).readings l.setters = [] := by
      rw [readings, hget]
      rfl
    exact read?_missing l.inner (stops_setters (by decide) (by decide) (by decide) (by decide) l)
      hnone (read?_setters l ⟨[], by simp⟩)
  | some g =>
    have hget := read?_part (read?_text "get;".toList (g.text ++ l.setters)) Part.getter
    rw [Option.map_some, Option.getD_some, List.append_assoc]
    exact read?_present l.inner (Text.stops_cons.mpr (by decide)) hget (read?_setters l g)

end TripleSlash.Shape
