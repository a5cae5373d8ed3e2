import TripleSlash.Proofs.Comment.Lines
import TripleSlash.Proofs.Text.Readings

/-! Lines behind a further indent. They are what they are without it, and a declaration differs in
its indent only. -/
namespace TripleSlash

open Pattern Shape

variable {w x line : Text}

theorem isComment_indented (hw : ∀ c ∈ w, isIndent c = true) (line : Text) :
    isComment (w ++ line) = isComment line := by
  rw [Bool.eq_iff_iff, isComment_iff, isComment_iff, List.dropWhile_append_of_pos hw]

theorem isAttribute_indented (hw : ∀ c ∈ w, isIndent c = true) (line : Text) :
    isAttribute (w ++ line) = isAttribute line := by
  rw [Bool.eq_iff_iff, isAttribute_iff, isAttribute_iff, List.dropWhile_append_of_pos hw]

namespace Declaration

variable {m : Capture} {kind : Kind} {q : LinePattern}

/-- The same declaration behind a further indent. -/
def indented (w : Text) (d : Declaration) : Declaration := { d with indent := w ++ d.indent }

/-- A capture with the indent in front of it. -/
def behind (x : Text) (m : Capture) : Capture := m.after [(.indent, x)]

@[simp] theorem rest_behind : (behind x m).rest = m.rest := rfl

@[simp] theorem text_indent_behind : (behind x m).text .indent = x := rfl

theorem lookup_behind (label : Part) (h : label ≠ .indent) :
    (behind x m).parts.lookup label = m.parts.lookup label := by
  have hne : (label == Part.indent) = false := beq_false_of_ne h
  simp [behind, Reading.after, List.lookup_cons, hne]

theorem text_behind (label : Part) (h : label ≠ .indent) :
    (behind x m).text label = m.text label := by
  rw [Reading.text, lookup_behind label h]
  rfl

theorem has_behind (label : Part) (h : label ≠ .indent) :
    (behind x m).has label = m.has label := by
  rw [Reading.has, lookup_behind label h]
  rfl

theorem capturedType_behind : capturedType (behind x m) = capturedType m := by
  simp [capturedType, text_behind, lookup_behind]

theorem ofCapture?_behind : ofCapture? (behind (w ++ x) m) kind =
    (ofCapture? (behind x m) kind).map (indented w) := by
  simp only [ofCapture?, text_behind .access (by decide),
    text_behind .name (by decide), text_indent_behind]
  cases Access.parse? (m.text .access) <;> rfl

theorem typeOfCapture?_behind : typeOfCapture? (behind (w ++ x) m) =
    (typeOfCapture? (behind x m)).map (indented w) := by
  simp only [typeOfCapture?, text_behind .keyword (by decide),
    text_behind .bases (by decide)]
  cases TypeKeyword.parse? (m.text .keyword) with
  | none => rfl
  | some keyword => exact ofCapture?_behind

theorem constructorOfCapture?_behind : constructorOfCapture? (behind (w ++ x) m) =
    (constructorOfCapture? (behind x m)).map (indented w) := ofCapture?_behind

theorem methodOfCapture?_behind : methodOfCapture? (behind (w ++ x) m) =
    (methodOfCapture? (behind x m)).map (indented w) := by
  simp only [methodOfCapture?, text_behind .modifiers (by decide), capturedType_behind,
    rest_behind]
  exact ofCapture?_behind

theorem propertyOfCapture?_behind : propertyOfCapture? (behind (w ++ x) m) =
    (propertyOfCapture? (behind x m)).map (indented w) := by
  simp only [propertyOfCapture?, has_behind .getter (by decide),
    has_behind .setter (by decide), has_behind .initer (by decide),
    capturedType_behind]
  exact ofCapture?_behind

/-- A shape takes the indent of its line first, and all of it. -/
theorem read?_indent (q : LinePattern) (line : Text) : (seq Shape.indent q).read? line =
    (q.read? (line.dropWhile isIndent)).map (behind (line.takeWhile isIndent)) := by
  have htake := take_length_sub (line.takeWhile isIndent) (line.dropWhile isIndent)
  rw [List.takeWhile_append_dropWhile] at htake
  simp only [read?, readings, Shape.indent, List.map_cons, List.map_nil, htake,
    List.flatMap_cons, List.flatMap_nil, List.append_nil, List.head?_map]
  rfl

/-- A further indent in front of a line only makes the captured indent longer. -/
theorem read?_indented (p : LinePattern) (hp : p = seq Shape.indent q)
    (hw : ∀ c ∈ w, isIndent c = true) (line : Text) :
    p.read? line = none ∧ p.read? (w ++ line) = none ∨
      ∃ x m, p.read? line = some (behind x m) ∧ p.read? (w ++ line) = some (behind (w ++ x) m) := by
  rw [hp, read?_indent, read?_indent, List.dropWhile_append_of_pos hw,
    List.takeWhile_append_of_pos hw]
  cases q.read? (line.dropWhile isIndent) with
  | none => exact .inl ⟨rfl, rfl⟩
  | some m => exact .inr ⟨_, m, rfl, rfl⟩

/-- What is recognized in a line is recognized behind a further indent. -/
theorem recognize?_indented (hw : ∀ c ∈ w, isIndent c = true) (line : Text) :
    recognize? (w ++ line) = (recognize? line).map (indented w) := by
  unfold recognize?
  rcases read?_indented typeLine rfl hw line with ⟨h, h'⟩ | ⟨x, m, h, h'⟩
  · rw [h, h']
    rcases read?_indented constructorLine rfl hw line with ⟨h, h'⟩ | ⟨x, m, h, h'⟩
    · rw [h, h']
      rcases read?_indented methodLine rfl hw line with ⟨h, h'⟩ | ⟨x, m, h, h'⟩
      · rw [h, h']
        rcases read?_indented propertyLine rfl hw line with ⟨h, h'⟩ | ⟨x, m, h, h'⟩
        · rw [h, h']
          rfl
        · rw [h, h']
          exact propertyOfCapture?_behind
      · rw [h, h']
        exact methodOfCapture?_behind
    · rw [h, h']
      exact constructorOfCapture?_behind
  · rw [h, h']
    exact typeOfCapture?_behind

end Declaration
end TripleSlash
