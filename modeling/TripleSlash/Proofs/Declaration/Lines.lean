import TripleSlash.Proofs.Declaration.Accessors
import TripleSlash.Proofs.Declaration.Bases

/-! How a line is read by the shape it is written for. -/
namespace TripleSlash

namespace Canonical

variable {p : Char → Bool}

/-- A name is none of the words that have a meaning of their own. -/
theorem Name.apart (n : Name) {t : Text} (ht : Text.Stops isWord t) :
    Shape.Apart keywords (n.text ++ t) := by
  rw [Shape.Apart, Text.takeWhile_stretch n.all ht]
  exact ⟨n.ne, n.notKeyword⟩

/-- What stands behind the first name of a type. -/
def TypeText.behind (t : TypeText) : Text :=
  t.base.more.flatMap ('.' :: ·.text) ++ (angles t.arguments ++ t.marks)

theorem TypeText.text_eq (t : TypeText) : t.text = t.base.first.text ++ t.behind := by
  simp [TypeText.text, TypeText.behind, Dotted.text]

theorem TypeText.stops_behind (hdot : p '.' = false) (hopen : p '<' = false)
    (hmark : p '?' = false) (hrank : p '[' = false) (t : TypeText) : Text.Stops p t.behind := by
  refine Text.Stops.append ?_ ((stops_angles hopen _).append (t.stops_marks hmark hrank))
  cases t.base.more with
  | nil => exact Text.stops_nil
  | cons n ns => exact Text.stops_cons.mpr hdot

theorem TypeText.stops_word (t : TypeText) (g : Stretch1 isBlank) (y : Text) :
    Text.Stops isWord (t.behind ++ (g.text ++ y)) :=
  (t.stops_behind (by decide) (by decide) (by decide) (by decide)).append
    (g.stops isWord_eq_false_of_isBlank y)

/-- A type begins with a name. -/
theorem TypeText.apart (t : TypeText) (g : Stretch1 isBlank) (y : Text) :
    Shape.Apart keywords (t.text ++ (g.text ++ y)) := by
  rw [t.text_eq, List.append_assoc]
  exact t.base.first.apart (t.stops_word g y)

/-- Modifiers in front of a word apart are words apart as well. -/
theorem apart_modifierText {words allowed : List Text} (hallowed : ∀ v ∈ allowed, v ∉ words)
    (ms : List (Keyword allowed)) {t : Text} (ht : Shape.Apart words t) :
    Shape.Apart words (modifierText ms ++ t) := by
  refine ht.behind fun w hw => ?_
  obtain ⟨k, -, rfl⟩ := List.mem_map.mp hw
  exact hallowed _ k.mem

/-- A kind of type with blanks behind its word. -/
def kindWord (k : TypeKeyword) (g : Stretch1 isBlank) : SpacedWord :=
  ⟨⟨⟨k.spelling, List.all_eq_true.mp (by cases k <;> decide)⟩, by cases k <;> decide⟩, g⟩

theorem apart_kind {words : List Text} (hwords : ∀ k : TypeKeyword, k.spelling ∉ words)
    (k : TypeKeyword) (g : Stretch1 isBlank) (t : Text) :
    Shape.Apart words (k.spelling ++ (g.text ++ t)) := by
  have hfirst : (k.spelling ++ (g.text ++ t)).takeWhile isWord = k.spelling :=
    Shape.takeWhile_spaced (kindWord k g) t
  rw [Shape.Apart, hfirst]
  exact ⟨(kindWord k g).word.ne, hwords k⟩

theorem stops_parameterText {accepts : Char → Bool} (hopen : p '<' = false)
    (hblank : ∀ c, isBlank c = true → p c = false)
    (x : Option (Stretch isBlank × Stretch accepts)) : Text.Stops p (parameterText x) := by
  cases x with
  | none => exact Text.stops_nil
  | some x =>
    exact (x.1.stops hblank).append (stops_angles hopen (some x.2))

theorem BasesText.stops (b : BasesText) (hcolon : p ':' = false)
    (hblank : ∀ c, isBlank c = true → p c = false) : Text.Stops p b.text :=
  (b.before.stops hblank).append (Text.stops_cons.mpr hcolon)

theorem TypeLine.stops (l : TypeLine) (hcolon : p ':' = false) (hbrace : p '\x7b' = false)
    (hblank : ∀ c, isBlank c = true → p c = false) :
    Text.Stops p (l.baseText ++ l.ending.text) := by
  refine Text.Stops.append ?_ (l.ending.stops hbrace hblank)
  rw [TypeLine.baseText]
  cases l.bases with
  | none => exact Text.stops_nil
  | some b => exact b.stops hcolon hblank

theorem TypeLine.stops_dropWhile (l : TypeLine) (hcolon : p ':' = false)
    (hbrace : p '\x7b' = false) :
    Text.Stops p ((l.baseText ++ l.ending.text).dropWhile isBlank) := by
  rw [TypeLine.baseText]
  cases l.bases with
  | none => exact l.ending.stops_dropWhile hbrace
  | some b =>
    have hstop : Text.Stops isBlank (':' :: (b.after.text ++ b.list) ++ l.ending.text) :=
      Text.stops_cons.mpr (by decide)
    have htext : b.text ++ l.ending.text =
        b.before.text ++ (':' :: (b.after.text ++ b.list) ++ l.ending.text) := by
      simp [BasesText.text]
    rw [Option.map_some, Option.getD_some, htext, Text.dropWhile_stretch b.before.all hstop]
    exact Text.stops_cons.mpr hcolon

end Canonical

namespace Shape

open Pattern Canonical

variable {ok : Text → Bool} {x y : Text} {parts : List (Part × Text)} {q : LinePattern}

/-- A capture that has an indent and an access modifier in front of what another one captured. -/
structure Headed (indent : Text) (a : Access) (m c : Declaration.Capture) : Prop where
  indent : c.text .indent = indent
  access : Access.parse? (c.text .access) = some a
  lookup : ∀ label, label ≠ .indent → label ≠ .access → c.parts.lookup label = m.parts.lookup label
  rest : c.rest = m.rest

theorem Headed.text {indent : Text} {a : Access} {m c : Declaration.Capture}
    (h : Headed indent a m c) (label : Part) (hindent : label ≠ .indent)
    (haccess : label ≠ .access) : c.text label = m.text label := by
  rw [Reading.text, Reading.text, h.lookup label hindent haccess]

/-- Indent and access modifier are read in front of what can be read behind them. -/
theorem read?_head (indent : Stretch isIndent) (a : AccessText) {m : Reading Part}
    (hq : q.read? x = some m) (hx : Apart accessWords x) :
    ∃ c, Headed indent.text a.modifier m c ∧ (seq Shape.indent (seq access (seq space q))).read?
      (indent.text ++ SpacedWord.line a.words ++ x) = some c := by
  obtain ⟨u, hu, -⟩ := takes_of_mem (mem_readings_of_read? hq)
  have hspace : ∀ g : Stretch1 isBlank,
      Picks (seq space q) (fun _ => true) (g.text ++ u) m.rest m.parts := fun g =>
    picks_skip (read?_run1 g (hu ▸ hx.stops)) (picks_of_read? (hu ▸ hq) rfl)
  have hleaves : ∀ g : Stretch1 isBlank,
      (seq space q).leaves (fun _ => true) (g.text ++ x) = true := by
    intro g
    simpa [hu] using leaves_of_picks (hspace g)
  obtain ⟨z, g, hline, hparse, haccess⟩ := picks_access a (needsBlank_space q _) hleaves hx
  have hstop : Text.Stops isIndent (z ++ (g.text ++ u) ++ m.rest) := by
    have hblank := SpacedWord.stops_line_append a.words hx.stops
    rw [hline] at hblank
    refine Text.Stops.mono ?_ fun c hc => isBlank_of_isIndent hc
    simpa [hu] using hblank
  have haccess : Picks access ((seq space q).leaves fun _ => true) z (g.text ++ u ++ m.rest)
      [(.access, z)] := by
    simpa [hu] using haccess
  have h := read?_of_picks (picks_then (read?_part (read?_run indent.all hstop) Part.indent)
    (picks_seq haccess (hspace g)))
  have htext : indent.text ++ SpacedWord.line a.words ++ x =
      indent.text ++ (z ++ (g.text ++ u)) ++ m.rest := by simp [hline, hu]
  let c : Declaration.Capture := ⟨(.indent, indent.text) :: (.access, z) :: m.parts, m.rest⟩
  refine ⟨c, ⟨rfl, hparse, fun label hindent haccess => ?_, rfl⟩, htext ▸ h⟩
  simp [c, List.lookup_cons, beq_eq_false_iff_ne.mpr hindent, beq_eq_false_iff_ne.mpr haccess]

/-- Modifiers of a list are read in front of another word. -/
theorem read?_keywords {s : String} {more : List String} {allowed : List Text} {t : Text}
    (hallowed : (s :: more).map (·.toList) = allowed) (hwords : ∀ v ∈ s :: more, IsWord v.toList)
    (ms : List (Keyword allowed)) (ht : Apart allowed t) :
    (modifiers s more).read? (modifierText ms ++ t) = some ⟨[], t⟩ := by
  subst hallowed
  refine read?_modifiers hwords (fun w hw => ?_) ht
  obtain ⟨m, -, rfl⟩ := List.mem_map.mp hw
  exact List.mem_map.mp m.mem

/-- A type from its modifiers on. -/
def typeRest : LinePattern := all
  [modifiers "static" ["abstract", "sealed", "partial", "readonly", "unsafe", "ref", "new"],
   part .keyword (anyWord "class" ["interface", "struct", "enum"]), space,
   part .name name,
   opt (seq gap (angledFlat (· != '>'))),
   opt (all [gap, text ":", gap, bases])]

theorem typeLine_eq_head : typeLine = seq indent (seq access (seq space typeRest)) := rfl

theorem read?_kindWord (k : TypeKeyword) (t : Text) :
    (anyWord "class" ["interface", "struct", "enum"]).read? (k.spelling ++ t) =
      some ⟨[], t⟩ := by
  -- The words begin with different letters.
  have hone : ∀ v ∈ "class" :: ["interface", "struct", "enum"], v.toList ≠ [] ∧
      (v.toList.head? = k.spelling.head? → v.toList = k.spelling) := by cases k <;> decide
  have hne : k.spelling ≠ [] := by cases k <;> decide
  have hmem : ∃ v ∈ "class" :: ["interface", "struct", "enum"], v.toList = k.spelling := by
    cases k <;> decide
  refine read?_of_unique ?_ ?_
  · obtain ⟨v, hv, he⟩ := hmem
    refine mem_readings_oneOf (List.mem_map_of_mem (l := "class" :: _) hv) ?_
    exact he ▸ mem_readings_of_read? (read?_text _ _)
  · intro m hm
    have hparts := parts_eq_nil (silent_anyWord _ _) hm
    obtain ⟨v, hv, ht⟩ := mem_anyWord hm
    have hhead := congrArg List.head? ht
    rw [List.head?_append_of_ne_nil _ hne, List.head?_append_of_ne_nil _ (hone v hv).1] at hhead
    rw [(hone v hv).2 hhead.symm] at ht
    rw [Reading.mk.injEq]
    exact ⟨hparts, (List.append_cancel_left ht).symm⟩

theorem read?_typeBases (b : Option BasesText) (e : Ending) :
    (opt (all [gap, text ":", gap, bases])).read? ((b.map (·.text)).getD [] ++ e.text) =
      some ⟨(b.map fun b => (Part.bases, b.list)).toList, e.text⟩ := by
  cases b with
  | none =>
    refine read?_opt_none ((readings_skip (readings_gap _) _).trans
      (readings_seq_eq_nil fun m hm => ?_))
    have hcolon : Text.Stops (· == ':') (e.text.dropWhile isBlank) := e.stops_dropWhile (by decide)
    simp [readings_text_eq_nil (c := ':') (x := []) hcolon] at hm
  | some b =>
    have hcolon : Text.Stops isBlank (':' :: (b.after.text ++ (b.list ++ e.text))) :=
      Text.stops_cons.mpr (by decide)
    have hname : Text.Stops isBlank (b.list ++ e.text) := by
      rw [BasesText.list, BaseText.text, List.append_assoc, List.append_assoc]
      exact b.first.name.stretch.stops isBlank_eq_false_of_isDotted _
    have htext : b.text ++ e.text =
        b.before.text ++ ':' :: (b.after.text ++ (b.list ++ e.text)) := by
      simp [BasesText.text]
    refine read?_opt ?_
    simp only [Option.map_some, Option.getD_some, htext]
    exact read?_skip (read?_run b.before.all hcolon) (read?_skip (read?_text [':'] _)
      (read?_skip (read?_run b.after.all hname) (read?_seq (read?_bases b e) (read?_done _))))

theorem read?_typeParameters (x : Option (Stretch isBlank × Stretch (· != '>'))) {t : Text}
    (ht : Text.Stops (· == '<') (t.dropWhile isBlank)) :
    (opt (seq gap (angledFlat (· != '>')))).read? (parameterText x ++ t) = some ⟨[], t⟩ := by
  cases x with
  | none =>
    refine read?_opt_none ((readings_skip (readings_gap _) _).trans
      (readings_seq_eq_nil fun m hm => ?_))
    simp [parameterText_none, readings_text_eq_nil (c := '<') (x := []) ht] at hm
  | some x =>
    have hopen : Text.Stops isBlank ('<' :: (x.2.text ++ '>' :: t)) :=
      Text.stops_cons.mpr (by decide)
    rw [parameterText_some_append]
    exact read?_opt (read?_skip (read?_run x.1.all hopen) (read?_angledFlat x.2 (by decide) t))

/-- A type is read up to what ends its head. -/
theorem read?_typeRest (l : TypeLine) : typeRest.read? l.text =
    some ⟨[(.keyword, l.keyword.spelling), (.name, l.name.text)] ++
      (l.bases.map fun b => (Part.bases, b.list)).toList, l.ending.text⟩ := by
  have hkind : ∀ t, Apart typeModifiers (l.keyword.spelling ++ (l.space.text ++ t)) :=
    apart_kind (fun k => by cases k <;> decide) l.keyword l.space
  have hname : ∀ t, Text.Stops isBlank (l.name.text ++ t) :=
    l.name.stops isBlank_eq_false_of_isWord
  have hrest : Text.Stops isWord (parameterText l.parameters ++ (l.baseText ++ l.ending.text)) :=
    (stops_parameterText (by decide) isWord_eq_false_of_isBlank _).append
      (l.stops (by decide) (by decide) isWord_eq_false_of_isBlank)
  have hbases := l.stops_dropWhile (p := (· == '<')) (by decide) (by decide)
  have h : typeRest.read? (modifierText l.modifiers ++ (l.keyword.spelling ++ (l.space.text ++
      (l.name.text ++ (parameterText l.parameters ++ (l.baseText ++ l.ending.text)))))) =
        some ⟨[(.keyword, l.keyword.spelling), (.name, l.name.text)] ++
          ((l.bases.map fun b => (Part.bases, b.list)).toList ++ []), l.ending.text⟩ :=
    read?_skip (read?_keywords (by rfl) (by decide) l.modifiers (hkind _))
      (read?_seq (read?_part (read?_kindWord l.keyword _) Part.keyword)
        (read?_skip (read?_run1 l.space (hname _))
          (read?_seq (read?_part (read?_run1 l.name.toStretch1 hrest) Part.name)
            (read?_skip (read?_typeParameters l.parameters hbases)
              (read?_seq (read?_typeBases l.bases l.ending) (read?_done _))))))
  simpa [TypeLine.text] using h

/-- A constructor from its name on. -/
def constructorRest : LinePattern := all [part .name name, gap, text "("]

theorem constructorLine_eq_head :
    constructorLine = seq indent (seq access (seq space constructorRest)) := rfl

theorem read?_constructorRest (l : ConstructorLine) :
    constructorRest.read? l.text = some ⟨[(.name, l.name.text)], l.rest⟩ := by
  have hname : Text.Stops isWord (l.gap.text ++ '(' :: l.rest) :=
    (l.gap.stops isWord_eq_false_of_isBlank).append (Text.stops_cons.mpr (by decide))
  have hgap : Text.Stops isBlank ('(' :: l.rest) := Text.stops_cons.mpr (by decide)
  rw [ConstructorLine.text, List.append_assoc]
  exact read?_seq (read?_part (read?_run1 l.name.toStretch1 hname) Part.name)
    (read?_skip (read?_run l.gap.all hgap) (read?_skip (read?_text ['('] _) (read?_done _)))

/-- A method from behind its type on. -/
def methodTail : LinePattern := all
  [space, part .name name, gap, opt (angledFlat isTypeParameter), gap, text "("]

/-- The modifiers of a method. -/
def methodWords : LinePattern := modifiers "static"
  ["async", "virtual", "override", "abstract", "sealed", "new", "extern", "unsafe", "partial"]

/-- A method from its modifiers on. -/
def methodRest : LinePattern := seq (part .modifiers methodWords) (seq type methodTail)

theorem methodLine_eq_head : methodLine = seq indent (seq access (seq space methodRest)) := rfl

/-- What is read behind type parameters stands behind them, if there are any, and blanks. -/
theorem mem_parameters {t : Text} {m : Reading Part}
    (h : m ∈ (seq gap (seq (opt (angledFlat isTypeParameter)) (seq gap q))).readings t) :
    ∃ (x : Option (Stretch isBlank × Stretch isTypeParameter)) (g : Stretch isBlank) (r : Text),
      t = parameterText x ++ (g.text ++ r) ∧ ∃ m' ∈ q.readings r, m'.rest = m.rest := by
  obtain ⟨m₁, h₁, m₂, h₂, rfl⟩ := mem_seq h
  obtain ⟨m₃, h₃, m₄, h₄, rfl⟩ := mem_seq h₂
  obtain ⟨m₅, h₅, m₆, h₆, rfl⟩ := mem_seq h₄
  obtain ⟨b, hb, -⟩ := mem_run h₁
  obtain ⟨g, hg, -⟩ := mem_run h₅
  rcases mem_opt h₃ with h₃ | rfl
  · obtain ⟨m₇, h₇, m₈, h₈, rfl⟩ := mem_seq h₃
    obtain ⟨m₉, h₉, m₁₀, h₁₀, rfl⟩ := mem_seq h₈
    obtain ⟨m₁₁, h₁₁, m₁₂, h₁₂, rfl⟩ := mem_seq h₁₀
    obtain rfl : m₁₂ = ⟨[], m₁₁.rest⟩ := by simpa [readings] using h₁₂
    obtain ⟨u, hu, -⟩ := mem_run h₉
    have hgap : m₁₁.rest = g.text ++ m₅.rest := hg
    refine ⟨some (b, u), g, m₅.rest, ?_, m₆, h₆, rfl⟩
    rw [parameterText_some_append, hb, mem_text h₇, hu, mem_text h₁₁, hgap]
    rfl
  · have hgap : m₁.rest = g.text ++ m₅.rest := hg
    refine ⟨none, ⟨b.text ++ g.text, List.forall_mem_append.mpr ⟨b.all, g.all⟩⟩, m₅.rest, ?_, m₆,
      h₆, rfl⟩
    rw [parameterText_none, hb, hgap, List.nil_append, List.append_assoc]

/-- The type parameters of a method and the parenthesis behind them. -/
theorem read?_methodParameters (x : Option (Stretch isBlank × Stretch isTypeParameter))
    (g : Stretch isBlank) (t : Text) :
    (all [gap, opt (angledFlat isTypeParameter), gap, text "("]).read?
      (parameterText x ++ (g.text ++ '(' :: t)) = some ⟨[], t⟩ := by
  have hparen : Text.Stops isBlank ('(' :: t) := Text.stops_cons.mpr (by decide)
  have hopen := read?_skip (read?_text (ι := Part) ['('] t) (read?_done t)
  cases x with
  | none =>
    -- The first blanks are all there are, and the second ones are none.
    have hnone : (opt (angledFlat isTypeParameter)).read? ('(' :: t) = some ⟨[], '(' :: t⟩ := by
      refine read?_opt_none (readings_seq_eq_nil fun m hm => ?_)
      have hangle : Text.Stops (· == '<') ('(' :: t) := Text.stops_cons.mpr (by decide)
      simp [readings_text_eq_nil (c := '<') (x := []) hangle] at hm
    have hgap : gap.read? ('(' :: t) = some ⟨[], '(' :: t⟩ :=
      read?_run (x := []) (by simp) hparen
    rw [parameterText_none, List.nil_append]
    exact read?_skip (read?_run g.all hparen) (read?_skip hnone (read?_skip hgap hopen))
  | some x =>
    have hangle : Text.Stops isBlank ('<' :: (x.2.text ++ '>' :: (g.text ++ '(' :: t))) :=
      Text.stops_cons.mpr (by decide)
    rw [parameterText_some_append]
    exact read?_skip (read?_run x.1.all hangle)
      (read?_skip (read?_opt (read?_angledFlat x.2 (by decide) _))
        (read?_skip (read?_run g.all hparen) hopen))

theorem read?_methodTail (g : Stretch1 isBlank) (n : Name)
    (x : Option (Stretch isBlank × Stretch isTypeParameter)) (g' : Stretch isBlank) (t : Text) :
    methodTail.read? (g.text ++ (n.text ++ (parameterText x ++ (g'.text ++ '(' :: t)))) =
      some ⟨[(.name, n.text)], t⟩ := by
  have hblank : ∀ t, Text.Stops isBlank (n.text ++ t) := n.stops isBlank_eq_false_of_isWord
  have hword : Text.Stops isWord (parameterText x ++ (g'.text ++ '(' :: t)) :=
    (stops_parameterText (by decide) isWord_eq_false_of_isBlank x).append
      ((g'.stops isWord_eq_false_of_isBlank).append (Text.stops_cons.mpr (by decide)))
  exact read?_skip (read?_run1 g (hblank _))
    (read?_seq (read?_part (read?_run1 n.toStretch1 hword) Part.name)
      (read?_methodParameters x g' t))

/-- Behind the type parameters of a method there is no further name. -/
theorem methodTail_leaves (g : Stretch isBlank) (t : Text) :
    methodTail.leaves ok (g.text ++ '(' :: t) = false := by
  refine leaves_eq_false (readings_seq_eq_nil fun m hm => readings_seq_eq_nil fun m' hm' => ?_)
  obtain ⟨x, hx, hstop⟩ := mem_run1 hm
  have hparen : Text.Stops isBlank ('(' :: t) := Text.stops_cons.mpr (by decide)
  obtain ⟨-, hrest⟩ := Text.stretch_inj g.all x.all hparen hstop hx
  rw [← hrest] at hm'
  obtain ⟨m₁, h₁, -⟩ := mem_part hm'
  have hnone : (run1 isWord : LinePattern).readings ('(' :: t) = [] :=
    readings_run1_eq_nil (Text.stops_cons.mpr (by decide))
  simp [name, hnone] at h₁

/-- Behind the type of a method only its type parameters close a bracket, and they are followed by
no name. -/
theorem noClose_method (l : MethodLine) : NoClose isTypeArgument
    (marks.leaves (methodTail.leaves fun _ => true)) (l.space.text ++ (l.name.text ++
      (parameterText l.parameters ++ (l.gap.text ++ '(' :: l.rest)))) := by
  have hparen : NoClose isTypeArgument (marks.leaves (methodTail.leaves fun _ => true))
      (l.gap.text ++ '(' :: l.rest) :=
    noClose_append (l.gap.not_mem (by decide)) (noClose_stop (by decide) (by decide) l.rest)
  refine noClose_append (l.space.not_mem (by decide))
    (noClose_append (l.name.not_mem (by decide)) ?_)
  cases l.parameters with
  | none => exact hparen
  | some x =>
    have hmark : Text.Stops isMark (l.gap.text ++ '(' :: l.rest) :=
      (l.gap.stops isMark_eq_false_of_isBlank).append (Text.stops_cons.mpr (by decide))
    have hleaves : marks.leaves (methodTail.leaves fun _ => true) (l.gap.text ++ '(' :: l.rest) =
        false := (marks_leaves hmark).trans (methodTail_leaves l.gap l.rest)
    have hinner : '>' ∉ x.1.text ++ '<' :: x.2.text := by
      simp [x.1.not_mem (d := '>') (by decide), x.2.not_mem (d := '>') (by decide)]
    simpa [parameterText_some_append] using noClose_append hinner (noClose_close hleaves hparen)

/-- Modifiers and a type are read in front of what can be read behind them. -/
theorem read?_typed {p : LinePattern} {allowed : List Text} {ms : List (Keyword allowed)}
    (t : TypeText) (g : Stretch1 isBlank) {z y : Text} {hs : List (Part × Text)}
    (hp : ∀ r, Apart keywords r → p.read? (modifierText ms ++ r) = some ⟨hs, r⟩)
    (hq : q.read? (g.text ++ z) = some ⟨parts, y⟩)
    (hlast : NoClose isTypeArgument (marks.leaves (q.leaves fun _ => true)) (g.text ++ z)) :
    (seq p (seq type q)).read? (modifierText ms ++ (t.text ++ (g.text ++ z))) =
      some ⟨hs ++ (typeParts t ++ parts), y⟩ := by
  have hp := hp _ (t.apart g z)
  obtain ⟨u, hu, -⟩ := takes_of_mem (mem_readings_of_read? hq)
  have htail : Picks q (fun _ => true) u y parts := picks_of_read? (hu ▸ hq) rfl
  have htype := picks_type t g (hu ▸ leaves_of_picks htail) hlast
  rw [hu] at htype hp ⊢
  rw [← List.append_assoc t.text] at hp ⊢
  have h := read?_of_picks (picks_then hp (picks_seq htype htail))
  rwa [List.append_assoc] at h

/-- A method is read up to the parenthesis that opens its parameters. -/
theorem read?_methodRest (l : MethodLine) : methodRest.read? l.text =
    some ⟨(.modifiers, modifierText l.modifiers) ::
      (typeParts l.returns ++ [(.name, l.name.text)]), l.rest⟩ := by
  have hmodifiers : ∀ r, Apart keywords r → (part .modifiers methodWords).read?
      (modifierText l.modifiers ++ r) = some ⟨[(.modifiers, modifierText l.modifiers)], r⟩ :=
    fun r hr => read?_part (read?_keywords (by rfl) (by decide) l.modifiers (hr.mono (by decide))) _
  have h := read?_typed l.returns l.space hmodifiers
    (read?_methodTail l.space l.name l.parameters l.gap l.rest) (noClose_method l)
  simpa [methodRest, MethodLine.text, MethodLine.body] using h

/-- A property from behind its type on. -/
def propertyTail : LinePattern :=
  seq space (seq (part .name name) (seq gap (seq (text "\x7b") accessors)))

/-- The modifiers of a property. -/
def propertyWords : LinePattern := modifiers "static"
  ["virtual", "override", "abstract", "sealed", "new", "required", "readonly", "unsafe", "extern"]

/-- A property from its modifiers on. -/
def propertyRest : LinePattern := seq propertyWords (seq type propertyTail)

theorem propertyLine_eq_head :
    propertyLine = seq indent (seq access (seq space propertyRest)) := rfl

theorem read?_propertyTail (l : PropertyLine) :
    propertyTail.read? (l.space.text ++ (l.name.text ++ (l.gap.text ++ '\x7b' :: l.accessors))) =
      some ⟨(.name, l.name.text) :: accessorParts l, l.rest⟩ := by
  have hblank : ∀ t, Text.Stops isBlank (l.name.text ++ t) :=
    l.name.stops isBlank_eq_false_of_isWord
  have hbrace : Text.Stops isBlank ('\x7b' :: l.accessors) := Text.stops_cons.mpr (by decide)
  have hword : Text.Stops isWord (l.gap.text ++ '\x7b' :: l.accessors) :=
    (l.gap.stops isWord_eq_false_of_isBlank).append (Text.stops_cons.mpr (by decide))
  exact read?_skip (read?_run1 l.space (hblank _))
    (read?_seq (read?_part (read?_run1 l.name.toStretch1 hword) Part.name)
      (read?_skip (read?_run l.gap.all hbrace)
        (read?_skip (read?_text ['\x7b'] _) (read?_accessors l))))

/-- A property is read up to the brace behind its accessors. -/
theorem read?_propertyRest (l : PropertyLine) : propertyRest.read? l.text =
    some ⟨typeParts l.type ++ (.name, l.name.text) :: accessorParts l, l.rest⟩ := by
  have hmodifiers : ∀ r, Apart keywords r →
      propertyWords.read? (modifierText l.modifiers ++ r) = some ⟨[], r⟩ :=
    fun r hr => read?_keywords (by rfl) (by decide) l.modifiers (hr.mono (by decide))
  -- No bracket closes between the type and the brace.
  have hlast : NoClose isTypeArgument (marks.leaves (propertyTail.leaves fun _ => true))
      (l.space.text ++ (l.name.text ++ (l.gap.text ++ '\x7b' :: l.accessors))) :=
    noClose_append (l.space.not_mem (by decide)) (noClose_append (l.name.not_mem (by decide))
      (noClose_append (l.gap.not_mem (by decide)) (noClose_stop (by decide) (by decide) _)))
  have h := read?_typed l.type l.space hmodifiers (read?_propertyTail l) hlast
  simpa [propertyRest, PropertyLine.text, PropertyLine.body] using h

end Shape
end TripleSlash
