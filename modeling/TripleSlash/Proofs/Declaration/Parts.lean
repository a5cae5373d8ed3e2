import TripleSlash.Proofs.Declaration.Modifiers

/-! The parts that a shape captures of a line. An access modifier and a keyword can always be made
out, so a line that a shape can read is a declaration; and the parts of a type fit together. -/
namespace TripleSlash

namespace Shape

open Pattern Canonical Declaration

variable {line t : Text} {m : Capture} {q : LinePattern} {ps : List LinePattern}

/-- The captured access modifier is the words of a form with blanks between them, and it is parsed
as the modifier of that form. -/
def AccessParsed (m : Capture) : Prop :=
  ∃ ws x a, m.text .access = SpacedWord.line ws ++ x ∧
    (SpacedWord.words ws ++ [x], a) ∈ Access.forms ∧ Access.parse? (m.text .access) = some a

theorem accessParsed_of_mem_access (h : m ∈ access.readings t) : AccessParsed m := by
  -- No two forms consist of the same words.
  have hlookup : ∀ f ∈ Access.forms, Access.forms.lookup f.1 = some f.2 := by decide
  obtain ⟨ws, x, hx, hform, -, hparts⟩ := mem_access h
  obtain ⟨⟨_, a⟩, hmem, rfl⟩ := List.mem_map.mp hform
  have htext : m.text .access = SpacedWord.line ws ++ x := by
    rw [Reading.text, hparts]
    rfl
  refine ⟨ws, x, a, htext, hmem, ?_⟩
  rw [htext, Access.parse?, fields_words ws hx]
  exact hlookup _ hmem

/-- Every shape has one access modifier, behind its indent. -/
theorem accessParsed_of_mem (hps : (all ps).labels .access = false)
    (h : m ∈ (all (indent :: access :: ps)).readings line) : AccessParsed m := by
  obtain ⟨s, m', hm', hlookup⟩ := mem_all_lookup [indent] h
  have htext : m.text .access = m'.text .access := by
    rw [Reading.text, Reading.text, hlookup .access (by decide) hps]
  have hparsed := accessParsed_of_mem_access hm'
  rwa [AccessParsed, ← htext] at hparsed

/-- A type declaration in front of its keyword. -/
def typeLead : List LinePattern :=
  [indent, access, space,
   modifiers "static" ["abstract", "sealed", "partial", "readonly", "unsafe", "ref", "new"]]

/-- A type declaration behind its keyword. -/
def typeTail : List LinePattern :=
  [space, part .name name, opt (seq gap (angledFlat (· != '>'))),
   opt (all [gap, text ":", gap, bases])]

/-- The word that tells which kind of type is declared. -/
def typeKeyword : LinePattern := anyWord "class" ["interface", "struct", "enum"]

theorem typeLine_split : typeLine = all (typeLead ++ part .keyword typeKeyword :: typeTail) := rfl

theorem mem_typeKeyword (h : m ∈ typeKeyword.readings t) :
    ∃ k : TypeKeyword, t = k.spelling ++ m.rest := by
  obtain ⟨v, hv, ht⟩ := mem_anyWord h
  have hkinds : ∀ v ∈ "class" :: ["interface", "struct", "enum"],
      ∃ k ∈ TypeKeyword.all, k.spelling = v.toList := by decide
  obtain ⟨k, -, hk⟩ := hkinds v hv
  exact ⟨k, hk ▸ ht⟩

/-- The captured keyword is parsed. -/
theorem keyword_of_mem (h : m ∈ typeLine.readings line) :
    ∃ k : TypeKeyword, m.text .keyword = k.spelling ∧
      TypeKeyword.parse? (m.text .keyword) = some k := by
  obtain ⟨s, m', hm', hlookup⟩ := mem_all_lookup typeLead (typeLine_split ▸ h)
  have htext : m.text .keyword = m'.text .keyword := by
    rw [Reading.text, Reading.text, hlookup .keyword (by decide) (by decide)]
  obtain ⟨m₁, h₁, x, hx, rfl⟩ := mem_part hm'
  obtain ⟨k, hk⟩ := mem_typeKeyword h₁
  have hspelling : m.text .keyword = k.spelling :=
    htext.trans (List.append_cancel_right (hx.symm.trans hk))
  exact ⟨k, hspelling, hspelling ▸ TypeKeyword.parse?_spelling k⟩

/-! Types -/

theorem mem_mark (h : m ∈ (opt (text "?") : LinePattern).readings t) :
    ∃ present, t = mark present ++ m.rest := by
  rcases mem_opt h with h | rfl
  · exact ⟨true, mem_text h⟩
  · exact ⟨false, rfl⟩

theorem mem_rank (h : m ∈ rank.readings t) :
    ∃ r : Stretch isRank, t = '[' :: (r.text ++ ']' :: m.rest) := by
  obtain ⟨m₁, h₁, m₂, h₂, rfl⟩ := mem_seq h
  obtain ⟨m₃, h₃, m₄, h₄, rfl⟩ := mem_seq h₂
  obtain ⟨m₅, h₅, m₆, h₆, rfl⟩ := mem_seq h₄
  obtain rfl : m₆ = ⟨[], m₅.rest⟩ := by simpa [readings] using h₆
  obtain ⟨r, hr, -⟩ := mem_run h₃
  refine ⟨r, ?_⟩
  rw [mem_text h₁, hr, mem_text h₅]
  rfl

theorem mem_ranks (h : m ∈ (star rank).readings t) : ∃ rs, t = rankText rs ++ m.rest := by
  refine star_induction (P := fun t m => ∃ rs, t = rankText rs ++ m.rest) ?_ ?_ h
  · exact fun t => ⟨[], rfl⟩
  · rintro t m hm m' ⟨rs, hrs⟩
    obtain ⟨r, rfl⟩ := mem_rank hm
    exact ⟨r :: rs, by simp [hrs, rankText, Reading.after]⟩

/-- Marks of null and ranks in the order in which they may stand behind a type. -/
def IsMarks (x : Text) : Prop := ∃ a rs b, x = mark a ++ (rankText rs ++ mark b)

theorem mem_marks (h : m ∈ marks.readings t) : ∃ x, IsMarks x ∧ t = x ++ m.rest := by
  obtain ⟨m₁, h₁, m₂, h₂, rfl⟩ := mem_seq h
  obtain ⟨m₃, h₃, m₄, h₄, rfl⟩ := mem_seq h₂
  obtain ⟨m₅, h₅, m₆, h₆, rfl⟩ := mem_seq h₄
  obtain rfl : m₆ = ⟨[], m₅.rest⟩ := by simpa [readings] using h₆
  obtain ⟨a, rfl⟩ := mem_mark h₁
  obtain ⟨rs, hrs⟩ := mem_ranks h₃
  obtain ⟨b, hb⟩ := mem_mark h₅
  exact ⟨_, ⟨a, rs, b, rfl⟩, by rw [hrs, hb]; simp [Reading.after]⟩

/-- The arguments of a type, where it has any, are captured with their brackets. -/
theorem mem_arguments (h : m ∈ arguments.readings t) : ∃ g : Option Text,
    t = g.getD [] ++ m.rest ∧ m.parts = (g.map (Part.generic, ·)).toList ∧
      ∀ x, g = some x → ∃ args, x = '<' :: (args ++ ['>']) := by
  rcases mem_opt h with h | rfl
  · obtain ⟨m', h', x, hx, rfl⟩ := mem_part h
    obtain ⟨args, hargs, -⟩ := mem_angled h'
    have hcut : t = '<' :: (args ++ ['>']) ++ m'.rest := by simpa using hargs
    obtain rfl : x = '<' :: (args ++ ['>']) := List.append_cancel_right (hx.symm.trans hcut)
    refine ⟨some ('<' :: (args ++ ['>'])), hcut, ?_, ?_⟩
    · simp [parts_eq_nil (p := angled isTypeArgument) rfl h']
    · exact fun x hx => ⟨args, (Option.some.inj hx).symm⟩
  · exact ⟨none, rfl, rfl, by simp⟩

/-- What is captured of a type is put together from its base, its arguments and its marks. -/
theorem mem_type_parts (h : m ∈ type.readings t) : ∃ (b : Text) (g : Option Text) (y : Text),
    m.parts = (.type, b ++ (g.getD [] ++ y)) :: (.base, b) :: (g.map (Part.generic, ·)).toList ∧
      IsMarks y ∧ ∀ x, g = some x → ∃ args, x = '<' :: (args ++ ['>']) := by
  obtain ⟨m₁, h₁, x, hx, rfl⟩ := mem_part (type_eq ▸ h)
  obtain ⟨m₂, h₂, m₃, h₃, rfl⟩ := mem_seq h₁
  obtain ⟨m₄, h₄, b, rfl, rfl⟩ := mem_part h₂
  obtain ⟨m₅, h₅, m₆, h₆, rfl⟩ := mem_seq h₃
  obtain ⟨g, hg, hparts, hbrackets⟩ := mem_arguments h₅
  obtain ⟨y, hy, hrest⟩ := mem_marks h₆
  have hbase : m₄.parts = [] :=
    parts_eq_nil (p := seq name (star (seq (text ".") name))) (by decide) h₄
  have hsilent : m₆.parts = [] := parts_eq_nil (p := marks) (by decide) h₆
  have hg : m₄.rest = g.getD [] ++ m₅.rest := hg
  obtain rfl : x = b ++ (g.getD [] ++ y) := by
    refine List.append_cancel_right (hx.symm.trans ?_)
    rw [hg, hrest]
    simp [Reading.after]
  exact ⟨b, g, y, by simp [Reading.after, hbase, hsilent, hparts], hy, hbrackets⟩

/-- The labels of the parts of a type. -/
def typeLabels : List Part := [.type, .base, .generic]

/-- The four shapes of declarations. -/
def shapes : List LinePattern := [typeLine, constructorLine, methodLine, propertyLine]

theorem accessParsed_of_mem_shapes {p : LinePattern} (hp : p ∈ shapes) (h : m ∈ p.readings line) :
    AccessParsed m := by
  simp only [shapes, List.mem_cons, List.not_mem_nil, or_false] at hp
  rcases hp with rfl | rfl | rfl | rfl
  · exact accessParsed_of_mem (by decide) h
  · exact accessParsed_of_mem (by decide) h
  · exact accessParsed_of_mem (by decide) h
  · exact accessParsed_of_mem (by decide) h

end Shape

/-- The parts of a type fit together: it is written as its base with its arguments, if it has any,
and marks of null and ranks behind them. -/
structure TypeRef.Consistent (t : TypeRef) : Prop where
  full : t.full = t.base ++ t.generic.getD []
  written : ∃ x, Shape.IsMarks x ∧ t.written = t.full ++ x
  bracketed : ∀ g, t.generic = some g → g = '<' :: (t.inner ++ ['>'])
  plain : t.generic = none → t.inner = []

namespace Declaration

open Pattern Shape

variable {line t : Text} {m : Capture} {d : Declaration} {p q : LinePattern}
  {ps : List LinePattern}

theorem consistent_of_mem_type (h : m ∈ Shape.type.readings t) : (capturedType m).Consistent := by
  obtain ⟨b, g, y, hparts, hy, hbrackets⟩ := mem_type_parts h
  have htype : capturedType m = ⟨b ++ (g.getD [] ++ y), b, g⟩ := by
    rw [capturedType, Reading.text, Reading.text, hparts]
    cases g <;> rfl
  rw [htype]
  refine ⟨rfl, ⟨y, hy, by simp [TypeRef.full]⟩, ?_, ?_⟩
  · rintro x rfl
    obtain ⟨args, rfl⟩ := hbrackets x rfl
    exact congrArg (fun inner => '<' :: (inner ++ ['>'])) TypeRef.inner_eq.symm
  · rintro rfl
    rfl

/-- A member has one type, behind its modifiers. -/
theorem consistent_of_mem (hlead : ∀ label ∈ typeLabels,
      (all [Shape.indent, Shape.access, space, q]).labels label = false)
    (hps : ∀ label ∈ typeLabels, (all ps).labels label = false)
    (h : m ∈ (all (Shape.indent :: Shape.access :: space :: q :: Shape.type :: ps)).readings line) :
    (capturedType m).Consistent := by
  obtain ⟨s, m', hm', hlookup⟩ := mem_all_lookup [Shape.indent, Shape.access, space, q] h
  have heq : ∀ label ∈ typeLabels, m.parts.lookup label = m'.parts.lookup label :=
    fun label hlabel => hlookup label (hlead label hlabel) (hps label hlabel)
  have htype : capturedType m = capturedType m' := by
    rw [capturedType, capturedType, Reading.text, Reading.text, Reading.text, Reading.text,
      heq .type (by decide), heq .base (by decide), heq .generic (by decide)]
  exact htype ▸ consistent_of_mem_type hm'

theorem ofCapture?_isSome (h : AccessParsed m) (kind : Kind) :
    (ofCapture? m kind).isSome = true := by
  obtain ⟨-, -, a, -, -, ha⟩ := h
  simp [ofCapture?, ha]

theorem typeOfCapture?_isSome (h : m ∈ typeLine.readings line) :
    (typeOfCapture? m).isSome = true := by
  obtain ⟨k, -, hk⟩ := keyword_of_mem h
  have haccess := accessParsed_of_mem_shapes (by simp [shapes]) h
  simpa [typeOfCapture?, hk] using ofCapture?_isSome haccess _

/-- The first shape that can be read gives a declaration. -/
theorem recognize?_isSome (hp : p ∈ shapes) (h : p.begins line = true) :
    (recognize? line).isSome = true := by
  have hparsed : ∀ q ∈ shapes, ∀ m, q.read? line = some m → AccessParsed m :=
    fun q hq m hm => accessParsed_of_mem_shapes hq (mem_readings_of_read? hm)
  -- The first shape that can be read need not be `p`, but it gives a declaration as well.
  unfold recognize?
  split
  next m hm => exact typeOfCapture?_isSome (mem_readings_of_read? hm)
  next htype =>
    split
    next m hm => exact ofCapture?_isSome (hparsed constructorLine (by simp [shapes]) m hm) _
    next hconstructor =>
      split
      next m hm => exact ofCapture?_isSome (hparsed methodLine (by simp [shapes]) m hm) _
      next hmethod =>
        split
        next m hm => exact ofCapture?_isSome (hparsed propertyLine (by simp [shapes]) m hm) _
        next hproperty =>
          have hnone : ∀ q ∈ shapes, q.read? line = none := by
            simp [shapes, htype, hconstructor, hmethod, hproperty]
          simp [begins, hnone p hp] at h

theorem begins_of_recognize? (h : recognize? line = some d) :
    ∃ p ∈ shapes, p.begins line = true := by
  cases recognize?_eq_some.mp h with
  | type m hm _ => exact ⟨typeLine, by simp [shapes], by simp [begins, hm]⟩
  | constructor m _ hm _ => exact ⟨constructorLine, by simp [shapes], by simp [begins, hm]⟩
  | method m _ _ hm _ => exact ⟨methodLine, by simp [shapes], by simp [begins, hm]⟩
  | property m _ _ _ hm _ => exact ⟨propertyLine, by simp [shapes], by simp [begins, hm]⟩

theorem recognize?_eq_none_iff :
    recognize? line = none ↔ ∀ p ∈ shapes, p.begins line = false := by
  constructor
  · intro h p hp
    by_contra hbegins
    have hsome := recognize?_isSome hp (by simpa using hbegins)
    rw [h] at hsome
    exact Bool.noConfusion hsome
  · intro h
    by_contra hsome
    obtain ⟨d, hd⟩ := Option.ne_none_iff_exists'.mp hsome
    obtain ⟨p, hp, hbegins⟩ := begins_of_recognize? hd
    simp [h p hp] at hbegins

theorem recognize?_consistent {t : TypeRef} (h : recognize? line = some d)
    (ht : d.kind.type? = some t) : t.Consistent := by
  cases recognize?_shaped h with
  | type m hm hd =>
    obtain ⟨keyword, -, -, hkind⟩ := typeOfCapture?_eq_some hd
    simp [hkind, Kind.type?] at ht
  | constructor m hm hd => simp [(ofCapture?_eq_some hd).2.2, Kind.type?] at ht
  | method m hm hd =>
    rw [(ofCapture?_eq_some hd).2.2] at ht
    obtain rfl : capturedType m = t := Option.some.inj ht
    exact consistent_of_mem (q := part .modifiers methodWords) (by decide) (by decide) hm
  | property m hm hd =>
    rw [(ofCapture?_eq_some hd).2.2] at ht
    obtain rfl : capturedType m = t := Option.some.inj ht
    exact consistent_of_mem (q := propertyWords) (by decide) (by decide) hm

/-- A line that a shape can read is a declaration, whatever blanks stand between the words of its
access modifier, and the parts of the type of a member fit together. -/
theorem recognize?_parsed (line : Text) :
    (recognize? line = none ↔ ∀ p ∈ shapes, p.begins line = false) ∧
    (∀ p ∈ shapes, ∀ m ∈ p.readings line, AccessParsed m) ∧
    (∀ m ∈ typeLine.readings line, ∃ k : TypeKeyword,
      m.text .keyword = k.spelling ∧ TypeKeyword.parse? (m.text .keyword) = some k) ∧
    ∀ d t, recognize? line = some d → d.kind.type? = some t → t.Consistent :=
  ⟨recognize?_eq_none_iff, fun _ hp _ hm => accessParsed_of_mem_shapes hp hm,
    fun _ hm => keyword_of_mem hm, fun _ _ h ht => recognize?_consistent h ht⟩

/-- A method with an em space and a line separator inside its access modifier. -/
def spacedMethod : Text :=
  "protected\u2003\u2028internal Map<int, List<é>>?[ ,][]? Load(int id)".toList

/-- A type with brackets in its arguments, two ranks and both marks of null. -/
theorem recognize?_parsed_spacedMethod :
    ∃ d t, recognize? spacedMethod = some d ∧ d.access = .protInternal ∧
      d.kind.type? = some t ∧ t.generic = some "<int, List<é>>".toList ∧ t.Consistent ∧
      ∃ m ∈ methodLine.readings spacedMethod, AccessParsed m := by
  obtain ⟨-, haccess, -, htype⟩ := recognize?_parsed spacedMethod
  have hread : recognize? spacedMethod = some ⟨[], .protInternal, "Load".toList,
      .method false false ⟨"Map<int, List<é>>?[ ,][]?".toList, "Map".toList,
        some "<int, List<é>>".toList⟩ ⟨"int id".toList, true⟩⟩ := by decide +kernel
  have hmethod : methodLine.begins spacedMethod = true := by decide +kernel
  obtain ⟨m, hm⟩ := List.exists_mem_of_ne_nil _ (begins_iff.mp hmethod)
  exact ⟨_, _, hread, rfl, rfl, rfl, htype _ _ hread rfl, m, hm,
    haccess methodLine (by simp [shapes]) m hm⟩

end Declaration
end TripleSlash
