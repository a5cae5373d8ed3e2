import TripleSlash.Proofs.Declaration.Lines

/-! Every line with a declaration is recognized as what is written there. No shape that is tried
earlier takes a line away from its own, and all that is captured is what the line was made of. -/
namespace TripleSlash

namespace Shape

open Pattern Canonical

variable {line before after indent t : Text} {a : Access} {m c : Declaration.Capture}

/-- In a text each opening bracket has a closing one behind it. -/
def Closed (t : Text) : Prop := ∀ u v, t = u ++ '<' :: v → '>' ∈ v

theorem Closed.prepend {x : Text} (hx : '<' ∉ x) (ht : Closed t) : Closed (x ++ t) := by
  intro u v h
  induction x generalizing u with
  | nil => exact ht u v h
  | cons c x ih =>
    simp only [List.mem_cons, not_or] at hx
    cases u with
    | nil => exact absurd (List.cons.inj h).1.symm hx.1
    | cons d u => exact ih hx.2 u (List.cons.inj h).2

theorem closed_of_not_mem (h : '<' ∉ t) : Closed t := by
  rintro u v rfl
  simp at h

theorem closed_of_close (x : Text) (ht : '<' ∉ t) : Closed (x ++ '>' :: t) := by
  intro u v h
  induction x generalizing u with
  | nil =>
    have hmem : '<' ∈ '>' :: t := by
      rw [List.nil_append] at h
      simp [h]
    simp [ht] at hmem
  | cons c x ih =>
    cases u with
    | nil =>
      obtain ⟨-, rfl⟩ := List.cons.inj h
      simp
    | cons d u => exact ih u (List.cons.inj h).2

/-- A text is cut in one way in front of the first place of a character. -/
theorem cut_inj {c : Char} {x x' : Text} (hx : c ∉ x) (hx' : c ∉ x') (y y' : Text)
    (h : x ++ c :: y = x' ++ c :: y') : x = x' := by
  have hstop : ∀ y : Text, Text.Stops (· != c) (c :: y) := fun y => Text.stops_cons.mpr (by simp)
  have hall : ∀ x : Text, c ∉ x → ∀ d ∈ x, (d != c) = true := by
    intro x hx d hd
    have hne : d ≠ c := fun he => hx (he ▸ hd)
    simpa using hne
  exact (Text.stretch_inj (hall x hx) (hall x' hx') (hstop y) (hstop y') h).1

/-- Of two characters one comes first in a text. -/
theorem first_ne {c d : Char} {x x' : Text} (hne : c ≠ d) (hx : d ∉ x) (hx' : c ∉ x')
    (y y' : Text) : x ++ c :: y ≠ x' ++ d :: y' := by
  intro h
  rcases List.append_eq_append_iff.mp h with ⟨a, rfl, ha⟩ | ⟨a, rfl, ha⟩
  · cases a with
    | nil => exact hne (List.cons.inj ha).1
    | cons e a => exact hx' (by simp [(List.cons.inj ha).1])
  · cases a with
    | nil => exact hne (List.cons.inj ha).1.symm
    | cons e a => exact hx (by simp [(List.cons.inj ha).1])

/-- Behind a text whose brackets are closed a brace stands in no brackets. -/
theorem Closed.not_inside {p u y : Text} (hclosed : Closed before) (hbefore : '\x7b' ∉ before)
    (hp : '\x7b' ∉ p) (hu : '>' ∉ u) (h : before ++ '\x7b' :: after = p ++ '<' :: (u ++ y)) :
    '\x7b' ∉ u := by
  intro hmem
  obtain ⟨u₁, u₂, rfl, hu₁⟩ := List.eq_append_cons_of_mem hmem
  have hfront : '\x7b' ∉ p ++ '<' :: u₁ := by simp [hp, hu₁]
  have hcut : before = p ++ '<' :: u₁ := by
    refine cut_inj hbefore hfront after (u₂ ++ y) ?_
    rw [h]
    simp
  have hclose := hclosed p u₁ hcut
  simp [hclose] at hu

/-- A method has its parenthesis in front of any brace, unless the brace stands in brackets. -/
theorem methodLine_eq_nil (hline : line = before ++ '\x7b' :: after) (hparen : '(' ∉ before)
    (hbrace : '\x7b' ∉ before) (hclosed : Closed before) : methodLine.readings line = [] := by
  apply List.eq_nil_iff_forall_not_mem.mpr
  intro m hm
  have hsplit : methodLine = all ([indent, access, space, part .modifiers methodWords, type, space,
      part .name name] ++ [gap, opt (angledFlat isTypeParameter), gap, text "("]) := rfl
  obtain ⟨m₁, h₁, m₂, h₂, -⟩ := mem_readings_all_append (hsplit ▸ hm)
  obtain ⟨p, hp, hreads, -⟩ := takes_of_mem h₁
  have hhead : (all [indent, access, space, part .modifiers methodWords, type, space,
      part .name name]).reads '\x7b' = false := by decide
  have hfront : '\x7b' ∉ p := fun h => by simp [hreads _ h] at hhead
  obtain ⟨x, g, r, htext, m₃, h₃, -⟩ := mem_parameters h₂
  obtain ⟨m₄, h₄, -⟩ := mem_seq h₃
  have hopen : line = p ++ (parameterText x ++ (g.text ++ '(' :: m₄.rest)) := by
    rw [hp, htext, mem_text h₄]
    rfl
  have hmem : '\x7b' ∉ parameterText x := by
    cases x with
    | none => simp [parameterText_none]
    | some x =>
      have hblank : '\x7b' ∉ x.1.text := x.1.not_mem (by decide)
      have hcut : before ++ '\x7b' :: after = p ++ x.1.text ++ '<' :: (x.2.text ++
          '>' :: (g.text ++ '(' :: m₄.rest)) := by
        rw [← hline, hopen, parameterText_some_append, List.append_assoc]
      have hinside : '\x7b' ∉ x.2.text := hclosed.not_inside hbrace
        (by simp [hfront, hblank]) (x.2.not_mem (by decide)) hcut
      simp [parameterText, angles, hblank, hinside]
  have hall : '\x7b' ∉ p ++ (parameterText x ++ g.text) := by
    simp [hfront, hmem, g.not_mem (d := '\x7b') (by decide)]
  have hne : '(' ≠ '\x7b' := by decide
  refine first_ne hne hall hparen m₄.rest after ?_
  rw [← hline, hopen]
  simp

/-- What is captured behind the head of a line is the declaration with that head. -/
theorem Headed.ofCapture? (h : Headed indent a m c) (kind : Declaration.Kind) :
    Declaration.ofCapture? c kind = some ⟨indent, a, m.text .name, kind⟩ := by
  simp [Declaration.ofCapture?, h.access, h.indent, h.text .name]

theorem Headed.has (h : Headed indent a m c) (label : Part) (hindent : label ≠ .indent)
    (haccess : label ≠ .access) : c.has label = m.has label := by
  rw [Reading.has, Reading.has, h.lookup label hindent haccess]

theorem Headed.capturedType (h : Headed indent a m c) :
    Declaration.capturedType c = Declaration.capturedType m := by
  simp [Declaration.capturedType, h.text .type, h.text .base, h.lookup .generic]

/-- What is captured of a type has the labels of types only. -/
theorem lookup_typeParts (type : TypeText) (parts : List (Part × Text)) (label : Part)
    (hlabel : label ∉ [.type, .base, .generic]) :
    (typeParts type ++ parts).lookup label = parts.lookup label := by
  simp only [List.mem_cons, List.not_mem_nil, or_false, not_or] at hlabel
  obtain ⟨htype, hbase, hgeneric⟩ := hlabel
  cases hg : type.ref.generic <;>
    simp [typeParts, hg, List.lookup_cons, beq_eq_false_iff_ne.mpr htype,
      beq_eq_false_iff_ne.mpr hbase, beq_eq_false_iff_ne.mpr hgeneric]

/-- What is captured of a type is the type. -/
theorem capturedType_typeParts (type : TypeText) {parts : List (Part × Text)}
    (hparts : parts.lookup .generic = none) (rest : Text) :
    Declaration.capturedType ⟨typeParts type ++ parts, rest⟩ = type.ref := by
  have hgeneric : (typeParts type ++ parts).lookup .generic = type.ref.generic := by
    rw [typeParts]
    cases type.ref.generic with
    | none => exact hparts
    | some g => rfl
  rw [Declaration.capturedType, hgeneric]
  rfl

end Shape

namespace Canonical

open Shape Pattern

variable {words : List Text} {allowed : List Text}

theorem dropWhile_indent (indent : Stretch isIndent) (ws : List SpacedWord) {t : Text}
    (ht : Text.Stops isBlank t) :
    (indent.text ++ (SpacedWord.line ws ++ t)).dropWhile isIndent = SpacedWord.line ws ++ t :=
  Text.dropWhile_stretch indent.all
    ((SpacedWord.stops_line_append ws ht).mono fun _ hc => isBlank_of_isIndent hc)

theorem AccessText.mem (a : AccessText) : ∀ w ∈ a.words, w.word.text ∈ accessWords := by
  intro w hw
  have hforms : ∀ f ∈ Access.forms, ∀ v ∈ f.1, v ∈ accessWords := by decide
  exact hforms _ a.mem_forms _ (List.mem_map_of_mem hw)

/-- The words that stand in front of the name or the type of a member. -/
def leading (a : AccessText) (ms : List (Keyword allowed)) : List SpacedWord :=
  a.words ++ ms.map (·.toSpacedWord)

theorem line_leading (a : AccessText) (ms : List (Keyword allowed)) (t : Text) :
    SpacedWord.line (leading a ms) ++ t = SpacedWord.line a.words ++ (modifierText ms ++ t) := by
  simp [leading, modifierText]

/-- No word in front of a member is the word of a kind of type. -/
theorem not_kind_leading (hallowed : ∀ v ∈ allowed, v ∉ TypeKeyword.all.map (·.spelling))
    (a : AccessText) (ms : List (Keyword allowed)) :
    ∀ w ∈ leading a ms, w.word.text ∉ TypeKeyword.all.map (·.spelling) := by
  intro w hw
  have haccess : ∀ v ∈ accessWords, v ∉ TypeKeyword.all.map (·.spelling) := by decide
  rcases List.mem_append.mp hw with hw | hw
  · exact haccess _ (a.mem w hw)
  · obtain ⟨k, -, rfl⟩ := List.mem_map.mp hw
    exact hallowed _ k.mem

/-- A type is not followed by a parenthesis behind its first word. -/
theorem TypeText.not_open (t : TypeText) (g : Stretch1 isBlank) (n : Name) (y : Text) :
    Text.Stops (· == '(')
      (((t.text ++ (g.text ++ (n.text ++ y))).dropWhile isWord).dropWhile isBlank) := by
  rw [t.text_eq, List.append_assoc,
    Text.dropWhile_stretch t.base.first.all (t.stops_word g (n.text ++ y))]
  have hblank : Text.Stops isBlank t.behind :=
    t.stops_behind (by decide) (by decide) (by decide) (by decide)
  have hopen : Text.Stops (· == '(') t.behind :=
    t.stops_behind (by decide) (by decide) (by decide) (by decide)
  cases hb : t.behind with
  | nil =>
    rw [List.nil_append, Text.dropWhile_stretch g.all (n.stops isBlank_eq_false_of_isWord y)]
    exact n.stops_ne (by decide) y
  | cons c b =>
    rw [hb] at hblank hopen
    rw [Text.dropWhile_of_stops (show Text.Stops isBlank (c :: b ++ _) from hblank)]
    exact hopen

/-- No type is read off a line whose words in front of the first name are no kinds of type. -/
theorem typeLine_read?_none (indent : Stretch isIndent) (a : AccessText)
    (hallowed : ∀ v ∈ allowed, v ∉ TypeKeyword.all.map (·.spelling))
    (ms : List (Keyword allowed)) {t : Text} (ht : Apart keywords t) :
    typeLine.read? (indent.text ++ SpacedWord.line a.words ++ (modifierText ms ++ t)) = none := by
  have hline := dropWhile_indent indent (leading a ms) ht.stops
  have hnil := typeLine_eq_nil hline ht (not_kind_leading hallowed a ms)
  rw [line_leading] at hnil
  rw [List.append_assoc, read?, hnil]
  rfl

/-- No constructor is read off a line whose first name has no parenthesis behind it. -/
theorem constructorLine_read?_none (indent : Stretch isIndent) (a : AccessText)
    (ms : List (Keyword allowed)) {t : Text} (ht : Apart keywords t)
    (hopen : Text.Stops (· == '(') ((t.dropWhile isWord).dropWhile isBlank)) :
    constructorLine.read? (indent.text ++ SpacedWord.line a.words ++ (modifierText ms ++ t)) =
      none := by
  have hline := dropWhile_indent indent (leading a ms) ht.stops
  rw [line_leading] at hline
  rw [List.append_assoc, read?, List.head?_eq_none_iff]
  apply List.eq_nil_iff_forall_not_mem.mpr
  intro m hm
  obtain ⟨hparen, -⟩ :=
    mem_constructorLine (hline.trans (line_leading a ms t).symm) ht (by decide) hm
  rw [hparen] at hopen
  exact absurd (Text.stops_cons.mp hopen) (by decide)

theorem plain_line (ws : List SpacedWord) : ∀ c ∈ SpacedWord.line ws, isPlain c = true := by
  intro c hc
  obtain ⟨w, -, hc⟩ := List.mem_flatMap.mp hc
  rcases List.mem_append.mp hc with hc | hc
  · exact isPlain_of_isWord c (w.word.all c hc)
  · exact isPlain_of_isBlank c (w.space.all c hc)

theorem plain_dotted (d : Dotted) : ∀ c ∈ d.text, isPlain c = true := by
  intro c hc
  rcases List.mem_append.mp hc with hc | hc
  · exact isPlain_of_isWord c (d.first.all c hc)
  · obtain ⟨n, -, hc⟩ := List.mem_flatMap.mp hc
    rcases List.mem_cons.mp hc with rfl | hc
    · decide
    · exact isPlain_of_isWord c (n.all c hc)

/-- The line of a property in front of the arguments of its type. -/
def PropertyLine.front (indent : Stretch isIndent) (a : AccessText) (l : PropertyLine) : Text :=
  indent.text ++ (SpacedWord.line a.words ++ (modifierText l.modifiers ++ l.type.base.text))

/-- The line of a property between the arguments of its type and its brace. -/
def PropertyLine.back (l : PropertyLine) : Text :=
  l.type.marks ++ (l.space.text ++ (l.name.text ++ l.gap.text))

theorem plain_front (indent : Stretch isIndent) (a : AccessText) (l : PropertyLine) :
    ∀ c ∈ l.front indent a, isPlain c = true := by
  simp only [PropertyLine.front, List.mem_append]
  rintro c (hc | hc | hc | hc)
  · exact isPlain_of_isBlank c (isBlank_of_isIndent (indent.all c hc))
  · exact plain_line _ c hc
  · exact plain_line _ c hc
  · exact plain_dotted _ c hc

theorem plain_back (l : PropertyLine) : ∀ c ∈ l.back, isPlain c = true := by
  simp only [PropertyLine.back, List.mem_append]
  rintro c (hc | hc | hc | hc)
  · exact l.type.plain_marks c hc
  · exact isPlain_of_isBlank c (l.space.all c hc)
  · exact isPlain_of_isWord c (l.name.all c hc)
  · exact isPlain_of_isBlank c (l.gap.all c hc)

theorem not_mem_angles {p : Char → Bool} {d : Char} (hd : p d = false) (hopen : d ≠ '<')
    (hclose : d ≠ '>') (x : Option (Stretch p)) : d ∉ angles x := by
  cases x with
  | none => simp [angles]
  | some x => simp [angles, hopen, hclose, x.not_mem hd]

/-- No method is read off the line of a property. -/
theorem methodLine_read?_none (indent : Stretch isIndent) (a : AccessText) (l : PropertyLine) :
    methodLine.read? (indent.text ++ SpacedWord.line a.words ++ l.text) = none := by
  have hfront : ∀ d, isPlain d = false → d ∉ l.front indent a := fun _ =>
    Stretch.not_mem ⟨l.front indent a, plain_front indent a l⟩
  have hback : ∀ d, isPlain d = false → d ∉ l.back := fun _ =>
    Stretch.not_mem ⟨l.back, plain_back l⟩
  have hnot : ∀ d, isPlain d = false → isTypeArgument d = false → d ≠ '<' → d ≠ '>' →
      d ∉ l.front indent a ++ (angles l.type.arguments ++ l.back) := by
    intro d hplain hargument hopen hclose
    simp [hfront d hplain, not_mem_angles hargument hopen hclose, hback d hplain]
  have hclosed : Closed (l.front indent a ++ (angles l.type.arguments ++ l.back)) := by
    refine Closed.prepend (hfront '<' (by decide)) ?_
    cases l.type.arguments with
    | none => exact closed_of_not_mem (hback '<' (by decide))
    | some x => simpa [angles] using closed_of_close ('<' :: x.text) (hback '<' (by decide))
  have hline : indent.text ++ SpacedWord.line a.words ++ l.text =
      (l.front indent a ++ (angles l.type.arguments ++ l.back)) ++ '\x7b' :: l.accessors := by
    simp [PropertyLine.front, PropertyLine.back, PropertyLine.text, PropertyLine.body,
      TypeText.text]
  have hparen := hnot '(' (by decide) (by decide) (by decide) (by decide)
  have hbrace := hnot '\x7b' (by decide) (by decide) (by decide) (by decide)
  rw [read?, methodLine_eq_nil hline hparen hbrace hclosed]
  rfl

theorem recognize?_type (indent : Stretch isIndent) (a : AccessText) (l : TypeLine) :
    Declaration.recognize? (indent.text ++ SpacedWord.line a.words ++ l.text) =
      some ⟨indent.text, a.modifier, l.name.text, l.kind⟩ := by
  have hapart : Apart accessWords l.text := by
    have hkinds : ∀ k : TypeKeyword, k.spelling ∉ accessWords := fun k => by cases k <;> decide
    have hkind := apart_kind hkinds l.keyword l.space
      (l.name.text ++ (parameterText l.parameters ++ (l.baseText ++ l.ending.text)))
    simpa [TypeLine.text] using apart_modifierText (by decide) l.modifiers hkind
  obtain ⟨c, hc, hread⟩ := read?_head indent a (read?_typeRest l) hapart
  have hkeyword : TypeKeyword.parse? (c.text .keyword) = some l.keyword := by
    rw [hc.text .keyword (by decide) (by decide)]
    exact TypeKeyword.parse?_spelling l.keyword
  have hbases : c.text .bases = (l.bases.map (·.list)).getD [] := by
    rw [hc.text .bases (by decide) (by decide)]
    cases l.bases <;> rfl
  rw [Declaration.recognize?, typeLine_eq_head, hread]
  simp only [Declaration.typeOfCapture?, hkeyword, hbases]
  exact hc.ofCapture? l.kind

theorem recognize?_constructor (indent : Stretch isIndent) (a : AccessText) (l : ConstructorLine) :
    Declaration.recognize? (indent.text ++ SpacedWord.line a.words ++ l.text) =
      some ⟨indent.text, a.modifier, l.name.text, l.kind⟩ := by
  have hapart : Apart keywords l.text := by
    have hparen : Text.Stops isWord ('(' :: l.rest) := Text.stops_cons.mpr (by decide)
    rw [ConstructorLine.text, List.append_assoc]
    exact l.name.apart ((l.gap.stops isWord_eq_false_of_isBlank).append hparen)
  obtain ⟨c, hc, hread⟩ := read?_head indent a (read?_constructorRest l) (hapart.mono (by decide))
  have htype : typeLine.read? (indent.text ++ SpacedWord.line a.words ++ l.text) = none :=
    typeLine_read?_none indent a (by simp) ([] : List (Keyword [])) hapart
  rw [← constructorLine_eq_head] at hread
  simp only [Declaration.recognize?, htype, hread, Declaration.constructorOfCapture?, hc.rest,
    ← l.list_eq]
  exact hc.ofCapture? l.kind

theorem recognize?_method (indent : Stretch isIndent) (a : AccessText) (l : MethodLine) :
    Declaration.recognize? (indent.text ++ SpacedWord.line a.words ++ l.text) =
      some ⟨indent.text, a.modifier, l.name.text, l.kind⟩ := by
  have hapart : Apart keywords l.body := by
    have h := l.returns.apart l.space
      (l.name.text ++ (parameterText l.parameters ++ (l.gap.text ++ '(' :: l.rest)))
    simpa [MethodLine.body] using h
  have hopen : Text.Stops (· == '(') ((l.body.dropWhile isWord).dropWhile isBlank) := by
    have h := l.returns.not_open l.space l.name
      (parameterText l.parameters ++ (l.gap.text ++ '(' :: l.rest))
    simpa [MethodLine.body] using h
  obtain ⟨c, hc, hread⟩ := read?_head indent a (read?_methodRest l)
    (apart_modifierText (by decide) l.modifiers (hapart.mono (by decide)))
  have htype := typeLine_read?_none indent a (by decide) l.modifiers hapart
  have hconstructor := constructorLine_read?_none indent a l.modifiers hapart hopen
  rw [← MethodLine.text] at htype hconstructor
  rw [← methodLine_eq_head] at hread
  have hwords : Text.fields isBlank (c.text .modifiers) = l.modifiers.map (·.word.text) := by
    have h := SpacedWord.fields_line_append (l.modifiers.map (·.toSpacedWord)) []
    rw [List.append_nil] at h
    rw [hc.text .modifiers (by decide) (by decide)]
    exact h.trans (by simp [SpacedWord.words, Text.fields, Text.splitAtChars, Function.comp_def])
  have hlabel : ([(.name, l.name.text)] : List (Part × Text)).lookup .generic = none := rfl
  have hreturns : Declaration.capturedType c = l.returns.ref :=
    hc.capturedType.trans (capturedType_typeParts l.returns hlabel l.rest)
  have hname : Reading.text ⟨(.modifiers, modifierText l.modifiers) ::
      (typeParts l.returns ++ [(.name, l.name.text)]), l.rest⟩ Part.name = l.name.text :=
    congrArg (·.getD []) (lookup_typeParts l.returns [(.name, l.name.text)] .name (by decide))
  simp only [Declaration.recognize?, htype, hconstructor, hread, Declaration.methodOfCapture?,
    hwords, hreturns, hc.rest, ← l.list_eq]
  exact hname ▸ hc.ofCapture? l.kind

theorem recognize?_property (indent : Stretch isIndent) (a : AccessText) (l : PropertyLine) :
    Declaration.recognize? (indent.text ++ SpacedWord.line a.words ++ l.text) =
      some ⟨indent.text, a.modifier, l.name.text, l.kind⟩ := by
  have hapart : Apart keywords l.body := by
    have h := l.type.apart l.space (l.name.text ++ (l.gap.text ++ '\x7b' :: l.accessors))
    simpa [PropertyLine.body] using h
  have hopen : Text.Stops (· == '(') ((l.body.dropWhile isWord).dropWhile isBlank) := by
    have h := l.type.not_open l.space l.name (l.gap.text ++ '\x7b' :: l.accessors)
    simpa [PropertyLine.body] using h
  obtain ⟨c, hc, hread⟩ := read?_head indent a (read?_propertyRest l)
    (apart_modifierText (by decide) l.modifiers (hapart.mono (by decide)))
  have htype := typeLine_read?_none indent a (by decide) l.modifiers hapart
  have hconstructor := constructorLine_read?_none indent a l.modifiers hapart hopen
  rw [← PropertyLine.text] at htype hconstructor
  rw [← propertyLine_eq_head] at hread
  have hmethod := methodLine_read?_none indent a l
  have hlookup := lookup_typeParts l.type ((.name, l.name.text) :: accessorParts l)
  have htypeOf : Declaration.capturedType c = l.type.ref := by
    refine hc.capturedType.trans (capturedType_typeParts l.type ?_ l.rest)
    rw [accessorParts]
    cases l.getter <;> cases l.setter <;> cases l.initer <;> rfl
  have hname : Reading.text ⟨typeParts l.type ++ (.name, l.name.text) :: accessorParts l, l.rest⟩
      Part.name = l.name.text := by
    rw [Reading.text, hlookup .name (by decide)]
    rfl
  have haccessors : (⟨c.has .getter, c.has .setter, c.has .initer⟩ : Accessors) =
      ⟨l.getter.isSome, l.setter.isSome, l.initer.isSome⟩ := by
    rw [hc.has .getter (by decide) (by decide), hc.has .setter (by decide) (by decide),
      hc.has .initer (by decide) (by decide), Reading.has, Reading.has, Reading.has,
      hlookup .getter (by decide), hlookup .setter (by decide), hlookup .initer (by decide),
      accessorParts]
    cases l.getter <;> cases l.setter <;> cases l.initer <;> rfl
  simp only [Declaration.recognize?, htype, hconstructor, hmethod, hread,
    Declaration.propertyOfCapture?, htypeOf, haccessors]
  exact hname ▸ hc.ofCapture? l.kind

/-- A line is recognized as the declaration that is written on it. -/
theorem recognize?_text (l : Line) : Declaration.recognize? l.text = some l.declaration := by
  obtain ⟨indent, access, body⟩ := l
  cases body with
  | type l => exact recognize?_type indent access l
  | constructor l => exact recognize?_constructor indent access l
  | method l => exact recognize?_method indent access l
  | property l => exact recognize?_property indent access l

/-- A method with all that may stand in front of its parameters: two words of access, modifiers, and
a type with arguments, a rank and both marks of null. The brackets of the type parameters are no
part of the type, although they close later. -/
def loadLine : Line where
  indent := .of "\t" (by decide)
  access := {
    words := [⟨.of "internal" (by decide), .of " \u00a0" (by decide)⟩,
      ⟨.of "protected" (by decide), .of "\t" (by decide)⟩]
    modifier := .protInternal
    form := by decide }
  body := .method {
    modifiers := [⟨⟨.of "static" (by decide), .blank⟩, by decide⟩,
      ⟨⟨.of "async" (by decide), .of "  " (by decide)⟩, by decide⟩]
    returns := {
      base := ⟨⟨.of "Map" (by decide), by decide⟩, [⟨.of "Of" (by decide), by decide⟩]⟩
      arguments := some (.of "int, List<é>" (by decide))
      nullable := true
      ranks := [.of ", " (by decide)]
      nullableRanks := true }
    space := .blank
    name := ⟨.of "Load" (by decide), by decide⟩
    parameters := some (.blank, .of "T, U" (by decide))
    gap := .empty
    rest := "T key, (int, U) span) \x7b \x7d"
    list := ⟨"T key, (int, U) span", true⟩
    listed := .closed _ " \x7b \x7d" rfl (by decide) (by decide) }

theorem recognize?_text_load :
    loadLine.text =
        "\tinternal \u00a0protected\tstatic async  Map.Of<int, List<é>>?[, ]? Load <T, U>".toList ++
          "(T key, (int, U) span) \x7b \x7d".toList ∧
      Declaration.recognize? loadLine.text = some ⟨"\t", .protInternal, "Load", .method true true
        ⟨"Map.Of<int, List<é>>?[, ]?", "Map.Of", some "<int, List<é>>"⟩
        ⟨"T key, (int, U) span", true⟩⟩ :=
  ⟨by decide +kernel, (recognize?_text loadLine).trans (by decide +kernel)⟩

end Canonical
end TripleSlash
