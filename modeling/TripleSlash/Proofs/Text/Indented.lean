import TripleSlash.Proofs.Document.Lines
import TripleSlash.Proofs.Text.Substituted
import TripleSlash.Text.Blank

/-! Texts with an indent in front of every line. Behind its first line an indented text is the text
with the indent behind every line feed. -/
namespace TripleSlash

open Text

variable {w a b t x : Text} {l : Line} {lines : List Line}

/-- The same line behind an indent. -/
def Line.indented (w : Text) (l : Line) : Line := { l with text := w ++ l.text }

/-- The same text with an indent in front of every line. -/
def Text.indented (w t : Text) : Text := Line.join ((Line.ofText t).map (Line.indented w))

/-- Puts an indent behind a line feed. -/
def Text.addIndent (w : Text) : Char → Text := inPlaceOf '\n' ('\n' :: w)

theorem Text.rebreaks_addIndent (hw : ∀ c ∈ w, isIndent c = true) : Rebreaks (addIndent w) :=
  rebreaks_inPlaceOf (.inl rfl) (.inl rfl) fun hm => absurd (hw _ hm) (by decide)

theorem Text.spares_addIndent (ht : '\n' ∉ t) : Spares (addIndent w) t := spares_inPlaceOf ht

theorem Text.subst_break (b : LineBreak) :
    Text.subst (addIndent w) b.text = b.text ++ w := by
  cases b <;> simp [LineBreak.text, subst_cons, addIndent, inPlaceOf]

namespace Line

theorem plain_indented (hw : ∀ c ∈ w, isIndent c = true) (hl : l.Plain) :
    (l.indented w).Plain where
  noFeed := by
    intro hm
    rcases List.mem_append.mp hm with hm | hm
    · exact absurd (hw _ hm) (by decide)
    · exact hl.noFeed hm
  noReturn := by
    intro he hlast
    rcases List.eq_nil_or_concat l.text with hnil | ⟨y, c, hy⟩
    · have hm : '\r' ∈ w := List.mem_of_mem_getLast? (by simpa [indented, hnil] using hlast)
      exact absurd (hw _ hm) (by decide)
    · apply hl.noReturn he
      simpa [indented, hy] using hlast
  nonempty := by
    intro he hnil
    exact hl.nonempty he (List.append_eq_nil_iff.mp hnil).2

theorem proper_indented (hw : ∀ c ∈ w, isIndent c = true) (h : Proper lines) :
    Proper (lines.map (indented w)) := by
  induction lines with
  | nil => trivial
  | cons l lines ih =>
    refine ⟨plain_indented hw h.1, fun hne => h.2.1 ?_, ih h.2.2⟩
    rintro rfl
    exact hne rfl

/-- The lines of an indented text are its lines, indented. -/
theorem ofText_indented (hw : ∀ c ∈ w, isIndent c = true) (t : Text) :
    ofText (Text.indented w t) = (ofText t).map (indented w) :=
  ofText_join (proper_indented hw (proper_ofText t))

theorem full_indented (hl : l.Plain) (he : l.ending ≠ none) :
    (l.indented w).full ++ w = w ++ Text.subst (addIndent w) l.full := by
  obtain ⟨text, ending⟩ := l
  cases ending with
  | none => exact absurd rfl he
  | some b => simp [full, indented, subst_break, subst_of_spares (spares_addIndent hl.noFeed)]

/-- Each whole line leaves the indent of the next one behind. -/
theorem join_indented (h : ∀ l ∈ lines, l.Plain ∧ l.ending ≠ none) :
    join (lines.map (indented w)) ++ w = w ++ Text.subst (addIndent w) (join lines) := by
  induction lines with
  | nil => simp
  | cons l lines ih =>
    obtain ⟨hl, he⟩ := h l (by simp)
    calc join ((l :: lines).map (indented w)) ++ w
      _ = (l.indented w).full ++ (join (lines.map (indented w)) ++ w) := by simp
      _ = ((l.indented w).full ++ w) ++ Text.subst (addIndent w) (join lines) := by
          rw [ih fun l' hl' => h l' (by simp [hl'])]
          simp
      _ = w ++ Text.subst (addIndent w) (join (l :: lines)) := by
          rw [full_indented hl he]
          simp

theorem whole_ofText (h : t.getLast? = some '\n') : ∀ l ∈ ofText t, l.Plain ∧ l.ending ≠ none :=
  fun l hl => ⟨plain_of_mem_ofText hl, ending_ofText h l hl⟩

end Line

namespace Text

theorem indented_join (h : Line.Proper lines) :
    indented w (Line.join lines) = Line.join (lines.map (Line.indented w)) := by
  rw [indented, Line.ofText_join h]

theorem indented_join_append (h : ∀ l ∈ lines, l.Plain ∧ l.ending ≠ none) (t : Text) :
    indented w (Line.join lines ++ t) =
      Line.join (lines.map (Line.indented w)) ++ indented w t := by
  rw [indented, Line.ofText_join_append h, List.map_append, Line.join_append]
  rfl

/-- Behind whole lines a text is indented on its own. -/
theorem indented_append (h : a.getLast? = some '\n') (b : Text) :
    indented w (a ++ b) = indented w a ++ indented w b := by
  have hwhole := indented_join_append (w := w) (Line.whole_ofText h) b
  rwa [Line.join_ofText] at hwhole

/-- A text of whole lines leaves the indent of the line that follows behind. -/
theorem indented_append_self (h : t.getLast? = some '\n') :
    indented w t ++ w = w ++ Text.subst (addIndent w) t := by
  have hlines := Line.join_indented (w := w) (Line.whole_ofText h)
  rwa [Line.join_ofText] at hlines

/-- An indent goes in front of a text and behind every line feed but the last. -/
theorem indented_feed (w x : Text) :
    indented w (x ++ ['\n']) = w ++ (Text.subst (addIndent w) x ++ ['\n']) := by
  have hlast : Text.subst (addIndent w) ['\n'] = ['\n'] ++ w := subst_break .lf
  have hbehind := indented_append_self (w := w) (t := x ++ ['\n']) (by simp)
  rw [subst_append, hlast, ← List.append_assoc, ← List.append_assoc] at hbehind
  rw [← List.append_assoc]
  exact List.append_cancel_right hbehind

end Text
end TripleSlash
