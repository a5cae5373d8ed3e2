import Mathlib.Data.List.Infix
import TripleSlash.Proofs.Declaration.Lines

/-! Where modifiers end. A shape gives a modifier back, to take it for a name or for a type, only if
what stands behind the modifiers does not begin as the shape has it. -/
namespace TripleSlash

namespace Shape

open Pattern Canonical

variable {line t x z rest : Text} {m : Reading Part} {k : LinePattern} {p : Char → Bool}
  {words : List Text} {lead left : List SpacedWord}

/-- The words of the modifiers of members, those for access among them. -/
def modifierWords : List Text :=
  ["public", "internal", "protected", "private", "static", "async", "virtual", "override",
    "abstract", "sealed", "new", "extern", "unsafe", "partial", "required", "readonly"]

/-- What is behind the name of a member: a parenthesis or a brace, perhaps with type parameters in
front. -/
def opening : LinePattern :=
  all [gap, opt (angledFlat isTypeParameter), gap, oneOf (text "(") [text "\x7b"]]

/-- A name with its opening, and no type in front of it. -/
def bareMember : LinePattern := seq name opening

/-- A character that opens neither parameters nor accessors. -/
def isAhead (c : Char) : Bool := c ∉ ['(', '\x7b']

theorem isAhead_of_class (hparen : p '(' = false) (hbrace : p '\x7b' = false) (c : Char)
    (hc : p c = true) : isAhead c = true := by
  have hne : ∀ d, p d = false → c ≠ d := by
    rintro d hd rfl
    simp [hc] at hd
  simp [isAhead, hne _ hparen, hne _ hbrace]

/-- Ahead of the first parenthesis or brace of a text none of the words stands behind a blank. -/
def NoneBehind (words : List Text) (t : Text) : Prop :=
  ∀ s ∈ (t.takeWhile isAhead).tails, s.takeWhile isBlank ≠ [] →
    (s.dropWhile isBlank).takeWhile isWord ∉ words

instance (words : List Text) (t : Text) : Decidable (NoneBehind words t) :=
  inferInstanceAs (Decidable (∀ s ∈ _, _ → _))

theorem NoneBehind.not_mem {g : Stretch1 isBlank} {n : Stretch1 isWord}
    (h : NoneBehind words (x ++ (g.text ++ (n.text ++ z)))) (hx : ∀ c ∈ x, isAhead c = true)
    (hz : Text.Stops isWord z) : n.text ∉ words := by
  have hblank := isAhead_of_class (p := isBlank) (by decide) (by decide)
  have hword := isAhead_of_class (p := isWord) (by decide) (by decide)
  have hcut : (x ++ (g.text ++ (n.text ++ z))).takeWhile isAhead =
      x ++ (g.text ++ (n.text ++ z.takeWhile isAhead)) := by
    rw [List.takeWhile_append_of_pos hx,
      List.takeWhile_append_of_pos fun c hc => hblank c (g.all c hc),
      List.takeWhile_append_of_pos fun c hc => hword c (n.all c hc)]
  have hz : Text.Stops isWord (z.takeWhile isAhead) := by
    cases z with
    | nil => exact Text.stops_nil
    | cons c z =>
      by_cases hc : isAhead c = true
      · simpa [hc] using hz
      · simp [hc]
  have hstop : Text.Stops isBlank (n.text ++ z.takeWhile isAhead) :=
    n.stops isBlank_eq_false_of_isWord _
  have htail := h (g.text ++ (n.text ++ z.takeWhile isAhead))
    ((List.mem_tails _ _).mpr (hcut ▸ List.suffix_append _ _))
  rw [Text.takeWhile_stretch g.all hstop, Text.dropWhile_stretch g.all hstop,
    Text.takeWhile_stretch n.all hz] at htail
  exact htail g.ne

theorem class_of_not_isAhead (hparen : p '(' = false) (hbrace : p '\x7b' = false) {c : Char}
    (hc : isAhead c = false) : p c = false := by
  by_contra hp
  rw [isAhead_of_class hparen hbrace c (by simpa using hp)] at hc
  exact Bool.noConfusion hc

/-- An opening is type parameters, if there are any, and a parenthesis or a brace. -/
theorem mem_opening (h : m ∈ opening.readings t) :
    ∃ (x : Option (Stretch isBlank × Stretch isTypeParameter)) (g : Stretch isBlank) (c : Char)
      (w : Text), isAhead c = false ∧ t = parameterText x ++ (g.text ++ c :: w) := by
  obtain ⟨x, g, r, rfl, m', hm', -⟩ := mem_parameters h
  obtain ⟨m₁, h₁, -⟩ := mem_seq hm'
  obtain ⟨c, hc, rfl⟩ : ∃ c : Char, isAhead c = false ∧ r = c :: m₁.rest := by
    obtain ⟨q, hq, hr⟩ := mem_oneOf h₁
    simp only [List.mem_cons, List.not_mem_nil, or_false] at hq
    rcases hq with rfl | rfl
    · exact ⟨'(', by decide, mem_text hr⟩
    · exact ⟨'\x7b', by decide, mem_text hr⟩
  exact ⟨x, g, c, m₁.rest, hc, rfl⟩

/-- No further word stands in front of an opening. -/
theorem stops_opening {c : Char} (hc : isAhead c = false)
    (x : Option (Stretch isBlank × Stretch isTypeParameter)) (g : Stretch isBlank) (w : Text) :
    Text.Stops isWord ((parameterText x ++ (g.text ++ c :: w)).dropWhile isBlank) := by
  have hblank : isBlank c = false := class_of_not_isAhead (by decide) (by decide) hc
  have hword : isWord c = false := class_of_not_isAhead (by decide) (by decide) hc
  cases x with
  | none =>
    rw [parameterText_none, List.nil_append,
      Text.dropWhile_stretch g.all (Text.stops_cons.mpr hblank)]
    exact Text.stops_cons.mpr hword
  | some x =>
    rw [parameterText_some_append, Text.dropWhile_stretch x.1.all (Text.stops_cons.mpr (by decide))]
    exact Text.stops_cons.mpr (by decide)

/-- How the readings of a type begin and end. -/
theorem mem_type (h : m ∈ type.readings t) : ∃ (n : Stretch1 isWord) (y s : Text),
    t = n.text ++ (y ++ s) ∧ Text.Stops isWord (y ++ s) ∧
      ⟨[], s⟩ ∈ (star (seq (text ".") name) : LinePattern).readings (y ++ s) ∧
        ∃ m' ∈ (seq arguments marks).readings s, m'.rest = m.rest ∧
          ∃ x, m.parts = (.type, x) :: (.base, n.text ++ y) :: m'.parts := by
  obtain ⟨m₁, h₁, x, -, rfl⟩ := mem_part (type_eq ▸ h)
  obtain ⟨m₂, h₂, m₃, h₃, rfl⟩ := mem_seq h₁
  obtain ⟨m₄, h₄, z, hz, rfl⟩ := mem_part h₂
  obtain ⟨m₅, h₅, ⟨parts, s⟩, h₆, rfl⟩ := mem_seq h₄
  obtain ⟨n, hn, hstop⟩ := mem_run1 h₅
  obtain ⟨y, hy, -⟩ := takes_of_mem h₆
  obtain rfl : parts = [] := parts_eq_nil (p := star (seq (text ".") name)) (by decide) h₆
  have hparts : m₅.parts = [] := parts_eq_nil (p := name) (by decide) h₅
  rw [hy] at h₆ hn hstop
  have hcut : z ++ s = n.text ++ y ++ s := by
    rw [List.append_assoc]
    exact hz.symm.trans hn
  have hbase : z = n.text ++ y := List.append_cancel_right hcut
  refine ⟨n, y, s, hn, hstop, h₆, m₃, h₃, rfl, x, ?_⟩
  simp [Reading.after, hbase, hparts]

/-- The base of a type has its first word. -/
theorem mem_type_base (h : m ∈ type.readings t) :
    ∃ b, m.parts.lookup .base = some b ∧ b.takeWhile isWord = t.takeWhile isWord := by
  obtain ⟨n, y, s, rfl, hstop, -, m', -, -, x, hparts⟩ := mem_type h
  have hy : Text.Stops isWord y := by
    cases y with
    | nil => exact Text.stops_nil
    | cons c y => exact hstop
  refine ⟨n.text ++ y, by rw [hparts]; rfl, ?_⟩
  rw [Text.takeWhile_stretch n.all hy, Text.takeWhile_stretch n.all hstop]

/-- A type captures no name. -/
theorem mem_type_name (h : m ∈ type.readings t) : m.parts.lookup .name = none :=
  lookup_eq_none (by decide) h

/-- Without a dot behind it the first word of a type is its base. -/
theorem mem_type_plain {n : Stretch1 isWord} {r : Text} (hword : Text.Stops isWord r)
    (hdot : Text.Stops (· == '.') r) (h : m ∈ type.readings (n.text ++ r)) :
    m.parts.lookup .base = some n.text ∧
      ∃ m' ∈ (seq arguments marks).readings r, m'.rest = m.rest := by
  obtain ⟨n', y, s, ht, hstop, hstar, m', hm', hrest, x, hparts⟩ := mem_type h
  obtain ⟨hn, rfl⟩ := Text.stretch_inj n.all n'.all hword hstop ht
  have hnone : (seq (text ".") name : LinePattern).readings (y ++ s) = [] :=
    readings_seq_eq_nil fun m hm => by
      simp [readings_text_eq_nil (c := '.') (x := []) hdot] at hm
  rw [readings_star_none hnone, List.mem_singleton] at hstar
  have hs : s = y ++ s := congrArg Reading.rest hstar
  have hy : y = [] := by simpa using hs
  subst hy
  refine ⟨?_, m', hm', hrest⟩
  rw [hparts, hn, List.append_nil]
  rfl

theorem rest_of_no_arguments (hopen : Text.Stops (· == '<') t) (hmark : Text.Stops isMark t)
    (h : m ∈ (seq arguments marks).readings t) : m.rest = t := by
  rw [readings_skip (readings_arguments hopen), readings_marks hmark, List.mem_singleton] at h
  rw [h]

/-- In front of a blank a type is no more than a word. -/
theorem mem_type_spaced {w : SpacedWord}
    (h : m ∈ type.readings (w.word.text ++ (w.space.text ++ t))) :
    m.parts.lookup .base = some w.word.text ∧ m.rest = w.space.text ++ t := by
  obtain ⟨hbase, m', hm', hrest⟩ := mem_type_plain
    (w.space.stops isWord_eq_false_of_isBlank t) (w.space.stops_ne (by decide) t) h
  refine ⟨hbase, hrest ▸ ?_⟩
  exact rest_of_no_arguments (w.space.stops_ne (by decide) t)
    (w.space.stops isMark_eq_false_of_isBlank t) hm'

/-- Brackets that hold no closing bracket end at the first one, where no later one is reached. -/
theorem close_inj {u v y : Text} (hu : '>' ∉ u) (hv : ∀ c ∈ v, p c = true)
    (hlast : NoClose p (fun _ => true) t) (h : v ++ '>' :: y = u ++ '>' :: t) : y = t := by
  rcases List.append_eq_append_iff.mp h with ⟨a, rfl, ha⟩ | ⟨a, rfl, ha⟩
  · cases a with
    | nil => exact (List.cons.inj ha).2
    | cons d a =>
      obtain ⟨rfl, -⟩ := List.cons.inj ha
      exact absurd (by simp) hu
  · cases a with
    | nil => exact (List.cons.inj ha).2.symm
    | cons d a =>
      have hcut := hlast a y (List.cons.inj ha).2 fun c hc => hv c (by simp [hc])
      exact Bool.noConfusion hcut

theorem mem_angled (h : m ∈ (angled p).readings t) :
    ∃ v, t = '<' :: (v ++ '>' :: m.rest) ∧ ∀ c ∈ v, p c = true := by
  obtain ⟨m₁, h₁, m₂, h₂, rfl⟩ := mem_seq h
  obtain ⟨m₃, h₃, m₄, h₄, rfl⟩ := mem_seq h₂
  obtain ⟨m₅, h₅, m₆, h₆, rfl⟩ := mem_seq h₄
  obtain rfl : m₆ = ⟨[], m₅.rest⟩ := by simpa [readings] using h₆
  obtain ⟨v, hv, hreads, -⟩ := takes_of_mem h₃
  refine ⟨v, ?_, hreads⟩
  rw [mem_text h₁, hv, mem_text h₅]
  rfl

/-- Arguments of a type close where type parameters do. -/
theorem rest_of_parameters {c : Char} {u : Stretch isTypeParameter} {g : Stretch isBlank} {w : Text}
    (hc : isAhead c = false)
    (h : m ∈ (seq arguments marks).readings ('<' :: (u.text ++ '>' :: (g.text ++ c :: w)))) :
    m.rest = g.text ++ c :: w ∨ m.rest = '<' :: (u.text ++ '>' :: (g.text ++ c :: w)) := by
  obtain ⟨m₁, h₁, m₂, h₂, rfl⟩ := mem_seq h
  rcases mem_opt h₁ with h₁ | rfl
  · left
    obtain ⟨m₃, h₃, y, -, rfl⟩ := mem_part h₁
    obtain ⟨v, hv, hall⟩ := mem_angled h₃
    have hne : c ≠ '>' := by
      rintro rfl
      exact absurd hc (by decide)
    have hlast : NoClose isTypeArgument (fun _ => true) (g.text ++ c :: w) :=
      noClose_append (g.not_mem (by decide))
        (noClose_stop (class_of_not_isAhead (by decide) (by decide) hc) hne w)
    have hrest : m₃.rest = g.text ++ c :: w :=
      close_inj (u.not_mem (by decide)) hall hlast (List.cons.inj hv).2.symm
    have hmark : Text.Stops isMark (g.text ++ c :: w) :=
      (g.stops isMark_eq_false_of_isBlank).append
        (Text.stops_cons.mpr (class_of_not_isAhead (by decide) (by decide) hc))
    have hmarks : m₂ ∈ marks.readings m₃.rest := h₂
    rw [hrest, readings_marks hmark, List.mem_singleton] at hmarks
    rw [hmarks]
    rfl
  · right
    rw [readings_marks (Text.stops_cons.mpr (by decide)), List.mem_singleton] at h₂
    rw [h₂]
    rfl

/-- What may stand behind the base of a type ends in front of no name where an opening begins. -/
theorem stops_behind_type {c : Char} {g : Stretch isBlank} {w : Text}
    {x : Option (Stretch isBlank × Stretch isTypeParameter)} (hc : isAhead c = false)
    (h : m ∈ (seq arguments marks).readings (parameterText x ++ (g.text ++ c :: w))) :
    Text.Stops isWord (m.rest.dropWhile isBlank) := by
  have hnone := stops_opening hc none g w
  have hstop := stops_opening hc x g w
  rw [parameterText_none, List.nil_append] at hnone
  cases x with
  | none =>
    have hangle : Text.Stops (· == '<') (g.text ++ c :: w) :=
      (g.stops fun _ hb => beq_eq_false_of_class hb (by decide)).append
        (Text.stops_cons.mpr (class_of_not_isAhead (p := (· == '<')) (by decide) (by decide) hc))
    have hmark : Text.Stops isMark (g.text ++ c :: w) :=
      (g.stops isMark_eq_false_of_isBlank).append
        (Text.stops_cons.mpr (class_of_not_isAhead (by decide) (by decide) hc))
    rw [rest_of_no_arguments hangle hmark h]
    exact hnone
  | some x =>
    obtain ⟨b, u⟩ := x
    rw [parameterText_some_append] at h hstop
    by_cases hb : b.text = []
    · rw [hb, List.nil_append] at h hstop
      rcases rest_of_parameters hc h with hrest | hrest
      · exact hrest ▸ hnone
      · exact hrest ▸ hstop
    · -- In front of a blank there are neither arguments nor marks.
      rw [rest_of_no_arguments (Stretch1.stops_ne ⟨b, hb⟩ (by decide) _)
        (Stretch1.stops ⟨b, hb⟩ isMark_eq_false_of_isBlank _) h]
      exact hstop

/-- A member behind its modifiers: its type, its name, and what its kind has behind the name. -/
def member (k : LinePattern) : LinePattern := seq type (seq space (seq (part .name name) k))

theorem mem_member (h : m ∈ (member k).readings t) :
    ∃ m' ∈ type.readings t, ∃ (g : Stretch1 isBlank) (n : Stretch1 isWord) (z : Text),
      m'.rest = g.text ++ (n.text ++ z) ∧ Text.Stops isWord z ∧ k.readings z ≠ [] ∧
        m.parts.lookup .base = m'.parts.lookup .base ∧ m.parts.lookup .name = some n.text := by
  obtain ⟨m₁, h₁, m₂, h₂, rfl⟩ := mem_seq h
  obtain ⟨m₃, h₃, m₄, h₄, rfl⟩ := mem_seq h₂
  obtain ⟨m₅, h₅, m₆, h₆, rfl⟩ := mem_seq h₄
  obtain ⟨m₇, h₇, x, hx, rfl⟩ := mem_part h₅
  obtain ⟨g, hg, -⟩ := mem_run1 h₃
  obtain ⟨n, hn, hstop⟩ := mem_run1 h₇
  obtain rfl : x = n.text := List.append_cancel_right (hx.symm.trans hn)
  obtain ⟨b, hb, -⟩ := mem_type_base h₁
  have hspace : m₃.parts = [] := parts_eq_nil (p := space) (by decide) h₃
  refine ⟨m₁, h₁, g, n, m₇.rest, hn ▸ hg, hstop, List.ne_nil_of_mem h₆, ?_, ?_⟩
  · simp [Reading.after, List.lookup_append, hb]
  · simp only [Reading.after, hspace, List.lookup_append, mem_type_name h₁]
    rfl

theorem begins_iff {q : LinePattern} : q.begins t = true ↔ q.readings t ≠ [] := by
  rw [begins, read?, List.isSome_head?]

/-- A member has a type in front of its name. -/
theorem member_eq_nil_of_bare (h : bareMember.begins t = true) : (member k).readings t = [] := by
  apply List.eq_nil_iff_forall_not_mem.mpr
  intro m hm
  obtain ⟨m₁, h₁⟩ := List.exists_mem_of_ne_nil _ (begins_iff.mp h)
  obtain ⟨m₂, h₂, m₃, h₃, -⟩ := mem_seq h₁
  obtain ⟨n, hn, hword⟩ := mem_run1 h₂
  obtain ⟨x, g, c, w, hc, hopening⟩ := mem_opening h₃
  obtain ⟨m', hm', g', n', z, hgap, -⟩ := mem_member hm
  have hdot : Text.Stops (· == '.') m₂.rest := by
    rw [hopening]
    have hblank : ∀ c, isBlank c = true → (c == '.') = false := fun c hb =>
      beq_eq_false_of_class hb (by decide)
    have hend : Text.Stops (· == '.') (c :: w) :=
      Text.stops_cons.mpr (class_of_not_isAhead (p := (· == '.')) (by decide) (by decide) hc)
    exact (stops_parameterText (by decide) hblank x).append ((g.stops hblank).append hend)
  obtain ⟨-, m₄, h₄, hrest⟩ := mem_type_plain hword hdot (hn ▸ hm')
  have hstop := stops_behind_type hc (hopening ▸ h₄)
  rw [hrest, hgap, Text.dropWhile_stretch g'.all (n'.stops isBlank_eq_false_of_isWord z)] at hstop
  rw [Text.stops_append n'.ne] at hstop
  cases hn' : n'.text with
  | nil => exact n'.ne hn'
  | cons d y =>
    rw [hn', Text.stops_cons, n'.all d (by simp [hn'])] at hstop
    exact Bool.noConfusion hstop

/-- A member that is read from its type on has none of the words for its name or its type. -/
theorem mem_member_first (hwords : ∀ v ∈ words, IsWord v) (hrest : Apart words rest)
    (hnone : NoneBehind words rest) (h : m ∈ (member k).readings rest) :
    m.text .name ∉ words ∧ m.text .base ∉ words := by
  obtain ⟨m', hm', g, n, z, hgap, hz, -, hbase, hname⟩ := mem_member h
  obtain ⟨b, hb, hfirst⟩ := mem_type_base hm'
  obtain ⟨x, hx, hreads, -⟩ := takes_of_mem hm'
  have hahead : ∀ c ∈ x, isAhead c = true := fun c hc =>
    isAhead_of_class (p := type.reads) (by decide) (by decide) c (hreads c hc)
  rw [Reading.text, hname, Option.getD_some, Reading.text, hbase, hb, Option.getD_some]
  refine ⟨?_, fun hmem => ?_⟩
  · rw [hx, hgap] at hnone
    exact hnone.not_mem hahead hz
  · rw [List.takeWhile_eq_self_iff.mpr fun c hc => (hwords b hmem).2 c hc] at hfirst
    exact hrest.2 (hfirst ▸ hmem)

/-- A member that is read from a word in front on has this word for its type, and its name comes
next. -/
theorem mem_member_spaced {w : SpacedWord} (hk : ∀ z, k.readings z ≠ [] → opening.readings z ≠ [])
    (hrest : Apart words rest)
    (h : m ∈ (member k).readings
      (w.word.text ++ (w.space.text ++ (SpacedWord.line left ++ rest)))) :
    m.text .name = rest.takeWhile isWord ∧ m.text .base = w.word.text ∧
      bareMember.begins rest = true := by
  obtain ⟨m', hm', g, n, z, hgap, hz, hopen, hbase, hname⟩ := mem_member h
  obtain ⟨m₁, h₁⟩ := List.exists_mem_of_ne_nil _ (hk z hopen)
  obtain ⟨hb, hspace⟩ := mem_type_spaced hm'
  have hstop := SpacedWord.stops_line_append left hrest.stops
  obtain ⟨-, hafter⟩ := Text.stretch_inj g.all w.space.all
    (n.stops isBlank_eq_false_of_isWord z) hstop (hgap.symm.trans hspace)
  rw [Reading.text, hname, Option.getD_some, Reading.text, hbase, hb, Option.getD_some]
  cases left with
  | nil =>
    rw [SpacedWord.line_nil, List.nil_append] at hafter
    have hread := mem_readings_of_read? (read?_run1 (ι := Part) n hz)
    have hfirst := Text.takeWhile_stretch n.all hz
    rw [hafter] at hfirst
    exact ⟨hfirst.symm, rfl,
      begins_iff.mpr (List.ne_nil_of_mem (hafter ▸ mem_readings_seq hread h₁))⟩
  | cons u left =>
    exfalso
    obtain ⟨x, g', c, y, hc, hopening⟩ := mem_opening h₁
    have hend := stops_opening hc x g' y
    have hleft := SpacedWord.stops_line_append left hrest.stops
    rw [SpacedWord.line_cons, List.append_assoc, List.append_assoc] at hafter
    obtain ⟨-, rfl⟩ := Text.stretch_inj n.all u.word.all hz
      (u.space.stops isWord_eq_false_of_isBlank _) hafter
    rw [← hopening, Text.dropWhile_stretch u.space.all hleft] at hend
    exact hrest.line_ne left (Text.takeWhile_of_stops hend)

/-- A member takes no word of a list for its name where the text behind words of the list has no
other one of them. It takes one for its type exactly where this text has no type. -/
theorem mem_member_lead (hwords : ∀ v ∈ words, IsWord v)
    (hk : ∀ z, k.readings z ≠ [] → opening.readings z ≠ []) (hrest : Apart words rest)
    (hnone : NoneBehind words rest) (hleft : ∀ w ∈ left, w.word.text ∈ words)
    (h : m ∈ (member k).readings (SpacedWord.line left ++ rest)) :
    m.text .name ∉ words ∧ (m.text .base ∈ words ↔ bareMember.begins rest = true) := by
  cases left with
  | nil =>
    obtain ⟨hname, hbase⟩ := mem_member_first hwords hrest hnone h
    refine ⟨hname, fun hmem => absurd hmem hbase, fun hbare => ?_⟩
    exact absurd (member_eq_nil_of_bare hbare) (List.ne_nil_of_mem h)
  | cons w left =>
    rw [SpacedWord.line_cons, List.append_assoc, List.append_assoc] at h
    obtain ⟨hname, hbase, hbare⟩ := mem_member_spaced hk hrest h
    rw [hname, hbase]
    exact ⟨hrest.2, fun _ => hbare, fun _ => hleft w (by simp)⟩

/-- The parameters of a method stand behind an opening. -/
theorem opening_of_parameters
    (h : (all [gap, opt (angledFlat isTypeParameter), gap, text "("]).readings z ≠ []) :
    opening.readings z ≠ [] := by
  obtain ⟨m, hm⟩ := List.exists_mem_of_ne_nil _ h
  obtain ⟨m₁, h₁, m₂, h₂, -⟩ := mem_seq hm
  obtain ⟨m₃, h₃, m₄, h₄, -⟩ := mem_seq h₂
  obtain ⟨m₅, h₅, m₆, h₆, -⟩ := mem_seq h₄
  obtain ⟨m₇, h₇, m₈, h₈, -⟩ := mem_seq h₆
  have hparen : m₇ ∈ (oneOf (text "(") [text "\x7b"]).readings m₅.rest :=
    mem_readings_oneOf (by simp) h₇
  exact List.ne_nil_of_mem (mem_readings_seq h₁ (mem_readings_seq h₃ (mem_readings_seq h₅
    (mem_readings_seq hparen h₈))))

/-- The accessors of a property stand behind an opening without type parameters. -/
theorem opening_of_accessors {ps : List LinePattern}
    (h : (all (gap :: text "\x7b" :: ps)).readings z ≠ []) : opening.readings z ≠ [] := by
  obtain ⟨m, hm⟩ := List.exists_mem_of_ne_nil _ h
  obtain ⟨m₁, h₁, m₂, h₂, -⟩ := mem_seq hm
  obtain ⟨m₃, h₃, -⟩ := mem_seq h₂
  have hbrace : m₃ ∈ (oneOf (text "(") [text "\x7b"]).readings m₁.rest :=
    mem_readings_oneOf (by simp) h₃
  have hnone : (⟨[], m₁.rest⟩ : Reading Part) ∈
      (opt (angledFlat isTypeParameter)).readings m₁.rest :=
    List.mem_append_right _ (List.mem_singleton_self _)
  have hgap : (⟨[], m₁.rest⟩ : Reading Part) ∈ gap.readings m₁.rest := by
    obtain ⟨g, -, hstop⟩ := mem_run h₁
    rw [readings_gap, Text.dropWhile_of_stops hstop]
    exact List.mem_singleton_self _
  exact List.ne_nil_of_mem (mem_readings_seq h₁ (mem_readings_seq hnone (mem_readings_seq hgap
    (mem_readings_seq hbrace (List.mem_singleton_self _)))))

/-- On the line of a member the modifiers are taken for what they are taken for behind them. -/
theorem mem_memberLine {q : LinePattern} {ps : List LinePattern}
    (hline : line.dropWhile isIndent = SpacedWord.line lead ++ rest)
    (hlead : ∀ w ∈ lead, w.word.text ∈ modifierWords) (hrest : Apart modifierWords rest)
    (hnone : NoneBehind modifierWords rest)
    (hq : ∀ left m, m ∈ q.readings (SpacedWord.line left ++ rest) →
      (∃ used left', left = used ++ left' ∧ m.rest = SpacedWord.line left' ++ rest) ∧
        ∀ x ∈ m.parts, x.1 = .modifiers)
    (hps : ∀ z, (all ps).readings z ≠ [] → opening.readings z ≠ [])
    (h : m ∈ (all (indent :: access :: space :: q :: type :: space :: part .name name ::
      ps)).readings line) :
    m.text .name ∉ modifierWords ∧
      (m.text .base ∈ modifierWords ↔ bareMember.begins rest = true) := by
  obtain ⟨used, left, rfl, m', hm', -, x, y, hparts⟩ := mem_access_lead hline hrest (by decide) h
  obtain ⟨m₁, h₁, m₂, h₂, rfl⟩ := mem_seq hm'
  obtain ⟨⟨used', left', rfl, hrest'⟩, hmodifiers⟩ := hq left m₁ h₁
  have hlookup : ∀ label, label ≠ .indent → label ≠ .access → label ≠ .modifiers →
      m.text label = m₂.text label := by
    intro label hindent haccess hne
    have hnone : m₁.parts.lookup label = none :=
      List.lookup_eq_none_iff.mpr fun x hx => by simpa [hmodifiers x hx] using hne
    simp [Reading.text, hparts, Reading.after, List.lookup_append, hnone, List.lookup_cons,
      beq_eq_false_iff_ne.mpr hindent, beq_eq_false_iff_ne.mpr haccess]
  rw [hlookup .base (by decide) (by decide) (by decide),
    hlookup .name (by decide) (by decide) (by decide)]
  rw [hrest'] at h₂
  exact mem_member_lead (by decide) hps hrest hnone (fun w hw => hlead w (by simp [hw])) h₂

theorem mem_methodLine (hline : line.dropWhile isIndent = SpacedWord.line lead ++ rest)
    (hlead : ∀ w ∈ lead, w.word.text ∈ modifierWords) (hrest : Apart modifierWords rest)
    (hnone : NoneBehind modifierWords rest) (h : m ∈ methodLine.readings line) :
    m.text .name ∉ modifierWords ∧
      (m.text .base ∈ modifierWords ↔ bareMember.begins rest = true) := by
  refine mem_memberLine hline hlead hrest hnone (fun left m hm => ?_)
    (fun z => opening_of_parameters) h
  obtain ⟨m', hm', x, -, rfl⟩ := mem_part hm
  have hsilent : m'.parts = [] := parts_eq_nil (p := methodWords) (by decide) hm'
  obtain ⟨used, left', hused, hleft⟩ := mem_modifiers_lead hrest (by decide) hm'
  exact ⟨⟨used, left', hused, hleft⟩, by simp [hsilent]⟩

theorem mem_propertyLine (hline : line.dropWhile isIndent = SpacedWord.line lead ++ rest)
    (hlead : ∀ w ∈ lead, w.word.text ∈ modifierWords) (hrest : Apart modifierWords rest)
    (hnone : NoneBehind modifierWords rest) (h : m ∈ propertyLine.readings line) :
    m.text .name ∉ modifierWords ∧
      (m.text .base ∈ modifierWords ↔ bareMember.begins rest = true) := by
  refine mem_memberLine (q := propertyWords) hline hlead hrest hnone (fun left m hm => ?_)
    (fun z => opening_of_accessors) h
  have hsilent : m.parts = [] := parts_eq_nil (p := propertyWords) (by decide) hm
  exact ⟨mem_modifiers_lead hrest (by decide) hm, by simp [hsilent]⟩

end Shape

namespace Declaration

open Pattern Shape

/-- The type that a member has: what a method returns, or the type of a property. -/
def Kind.type? : Kind → Option TypeRef
  | .method _ _ returns _ => some returns
  | .property t _ => some t
  | _ => none

/-- Modifiers in front of a word, with none further behind, are never taken for the name of a
member. One of them is taken for its type exactly where the word is a name without a type. -/
theorem recognize?_modifiers {line rest : Text} {lead : List SpacedWord} {d : Declaration}
    (h : recognize? line = some d) (hmember : ∀ keyword bases, d.kind ≠ .type keyword bases)
    (hline : line.dropWhile isIndent = SpacedWord.line lead ++ rest)
    (hlead : ∀ w ∈ lead, w.word.text ∈ modifierWords) (hrest : Apart modifierWords rest)
    (hnone : NoneBehind modifierWords rest) :
    d.name ∉ modifierWords ∧
      ∀ t, d.kind.type? = some t → (t.base ∈ modifierWords ↔ bareMember.begins rest = true) := by
  cases recognize?_shaped h with
  | type m hm hd =>
    simp only [typeOfCapture?, bind, Option.bind_eq_some_iff] at hd
    obtain ⟨keyword, -, hd⟩ := hd
    exact absurd (ofCapture?_eq_some hd).2.2 (hmember _ _)
  | constructor m hm hd =>
    obtain ⟨-, hname, hkind⟩ := ofCapture?_eq_some hd
    obtain ⟨-, hfirst⟩ := mem_constructorLine hline hrest (by decide) hm
    rw [hname, hfirst, hkind]
    exact ⟨hrest.2, by simp [Kind.type?]⟩
  | method m hm hd =>
    obtain ⟨-, hname, hkind⟩ := ofCapture?_eq_some hd
    obtain ⟨htext, hbase⟩ := mem_methodLine hline hlead hrest hnone hm
    rw [hname, hkind]
    refine ⟨htext, fun t ht => ?_⟩
    obtain rfl : capturedType m = t := Option.some.inj ht
    exact hbase
  | property m hm hd =>
    obtain ⟨-, hname, hkind⟩ := ofCapture?_eq_some hd
    obtain ⟨htext, hbase⟩ := mem_propertyLine hline hlead hrest hnone hm
    rw [hname, hkind]
    refine ⟨htext, fun t ht => ?_⟩
    obtain rfl : capturedType m = t := Option.some.inj ht
    exact hbase

theorem recognize?_modifiers_load :
    ∃ d, recognize? "  public static async Task<int> Load(int id)".toList = some d ∧
      d.name ∉ modifierWords ∧ ∀ t, d.kind.type? = some t → t.base ∉ modifierWords := by
  let spaced (w : Text) (hw : IsWord w) : SpacedWord :=
    ⟨⟨⟨w, hw.2⟩, hw.1⟩, ⟨⟨[' '], List.all_eq_true.mp (by decide)⟩, by decide⟩⟩
  let lead := [spaced "public".toList (by decide), spaced "static".toList (by decide),
    spaced "async".toList (by decide)]
  let d : Declaration := ⟨"  ".toList, .pub, "Load".toList, .method true true
    ⟨"Task<int>".toList, "Task".toList, some "<int>".toList⟩ ⟨"int id".toList, true⟩⟩
  have hread : recognize? "  public static async Task<int> Load(int id)".toList = some d := by
    decide +kernel
  have hmember : ∀ keyword bases, d.kind ≠ .type keyword bases := by simp [d]
  have hline : "  public static async Task<int> Load(int id)".toList.dropWhile isIndent =
      SpacedWord.line lead ++ "Task<int> Load(int id)".toList := rfl
  have hlead : ∀ w ∈ lead, w.word.text ∈ modifierWords := by
    simp [lead, spaced, modifierWords]
  have hbare : ¬ bareMember.begins "Task<int> Load(int id)".toList = true := by decide +kernel
  obtain ⟨hname, htype⟩ := recognize?_modifiers hread hmember hline hlead (by decide +kernel)
    (by decide +kernel)
  exact ⟨d, hread, hname, fun t ht => (htype t ht).not.mpr hbare⟩

/-- Where no word follows the modifiers the last one is the name of a constructor, and where no type
follows them it is the type of a method. -/
theorem modifier_taken :
    (recognize? "public static (int, int) Swap(int a, int b)".toList = some
      ⟨[], .pub, "static".toList, .constructor ⟨"int, int".toList, true⟩⟩) ∧
    (recognize? "public unsafe Job(int* p)".toList = some
      ⟨[], .pub, "Job".toList, .method false false
        ⟨"unsafe".toList, "unsafe".toList, none⟩ ⟨"int* p".toList, true⟩⟩) := by
  decide +kernel

end Declaration
end TripleSlash
