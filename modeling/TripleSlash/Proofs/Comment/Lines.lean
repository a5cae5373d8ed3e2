import TripleSlash.Declaration.Recognition
import TripleSlash.Proofs.Document.Lines
import TripleSlash.Proofs.Text.Readings

/-! Texts whose lines are comments. -/
namespace TripleSlash

variable {a b t x : Text} {c : Char}

theorem isComment_iff : isComment t = true ↔ "///".toList <+: t.dropWhile isIndent := by
  simp [isComment, Shape.commentLine, Pattern.begins, Pattern.read?, Pattern.readings,
    Pattern.readings_text]

theorem isAttribute_iff : isAttribute t = true ↔ "[".toList <+: t.dropWhile isIndent := by
  simp [isAttribute, Shape.attributeLine, Pattern.begins, Pattern.read?, Pattern.readings,
    Pattern.readings_text]

/-- A comment is three slashes behind an indent. -/
theorem isComment_iff_exists : isComment t = true ↔
    ∃ indent rest, (∀ c ∈ indent, isIndent c = true) ∧ t = indent ++ ("///".toList ++ rest) := by
  rw [isComment_iff]
  constructor
  · rintro ⟨rest, hr⟩
    refine ⟨t.takeWhile isIndent, rest, List.all_eq_true.mp List.all_takeWhile, ?_⟩
    rw [hr, List.takeWhile_append_dropWhile]
  · rintro ⟨indent, rest, hi, rfl⟩
    rw [List.dropWhile_append_of_pos hi]
    exact ⟨rest, rfl⟩

theorem isComment_append (h : isComment a = true) : isComment (a ++ b) = true := by
  obtain ⟨indent, rest, hi, rfl⟩ := isComment_iff_exists.mp h
  exact isComment_iff_exists.mpr ⟨indent, rest ++ b, hi, by simp⟩

theorem isComment_indent_append (hx : ∀ c ∈ x, isIndent c = true) (h : isComment t = true) :
    isComment (x ++ t) = true := by
  obtain ⟨indent, rest, hi, rfl⟩ := isComment_iff_exists.mp h
  refine isComment_iff_exists.mpr ⟨x ++ indent, rest, fun c hc => ?_, by simp⟩
  exact (List.mem_append.mp hc).elim (hx c) (hi c)

/-- What follows the slashes does not make a comment. -/
theorem isComment_of_append_cons (h : isComment (a ++ c :: b) = true) (hs : c ≠ '/')
    (hi : isIndent c = false) : isComment a = true := by
  obtain ⟨indent, rest, hin, he⟩ := isComment_iff_exists.mp h
  have hlong : (indent ++ "///".toList) <+: a ++ c :: b := ⟨rest, by simp [he]⟩
  have hshort : a <+: a ++ c :: b := List.prefix_append a _
  rcases List.prefix_or_prefix_of_prefix hlong hshort with hp | hp
  · obtain ⟨y, rfl⟩ := hp
    exact isComment_iff_exists.mpr ⟨indent, y, hin, by simp⟩
  · -- otherwise `c` would be one of the slashes or part of the indent
    obtain ⟨y, hy⟩ := hp
    cases y with
    | nil =>
      rw [List.append_nil] at hy
      exact isComment_iff_exists.mpr ⟨indent, [], hin, by simpa using hy⟩
    | cons d y =>
      have hd : d = c := by
        have := he
        rw [← List.append_assoc, ← hy] at this
        exact (by simpa using this.symm : d = c ∧ y ++ rest = b).1
      have hmem : c ∈ indent ++ "///".toList := hy ▸ by simp [hd]
      rcases List.mem_append.mp hmem with hmem | hmem
      · exact absurd (hin c hmem) (by simp [hi])
      · exact absurd hmem (by simp [hs])

theorem isComment_noFeed_append {l : Line} (he : l.ending ≠ none)
    (h : isComment (l.full ++ b) = true) : isComment l.text = true := by
  obtain ⟨text, ending⟩ := l
  cases ending with
  | none => exact absurd rfl he
  | some br =>
    cases br with
    | lf =>
      apply isComment_of_append_cons (c := '\n') (b := b) _ (by decide) (by decide)
      simpa [Line.full, LineBreak.text] using h
    | crlf =>
      apply isComment_of_append_cons (c := '\r') (b := '\n' :: b) _ (by decide) (by decide)
      simpa [Line.full, LineBreak.text] using h

namespace Comment

/-- A text whose every line but the first is a comment. -/
def Flowing (t : Text) : Prop := ∀ a b, t = a ++ '\n' :: b → isComment b = true

/-- A text of whole lines, each of them a comment. -/
structure Block (t : Text) : Prop where
  first : isComment t = true
  further : ∀ a b, t = a ++ '\n' :: b → b = [] ∨ isComment b = true
  ended : t.getLast? = some '\n'

theorem flowing_of_noFeed (h : '\n' ∉ t) : Flowing t := by
  rintro u v rfl
  simp at h

theorem flowing_append (ha : Flowing a) (hb : Flowing b) : Flowing (a ++ b) := by
  intro u v h
  rcases List.append_eq_append_iff.mp h with ⟨x, rfl, hx⟩ | ⟨x, hx, hv⟩
  · exact hb x v hx
  · cases x with
    | nil => exact hb [] v hv.symm
    | cons c x =>
      obtain ⟨rfl, rfl⟩ := List.cons_eq_cons.mp hv
      exact isComment_append (ha u x hx)

theorem flowing_cons (hc : c ≠ '\n') (h : Flowing t) : Flowing (c :: t) :=
  flowing_append (a := [c]) (flowing_of_noFeed (by simpa using Ne.symm hc)) h

theorem flowing_feed (hc : isComment t = true) (h : Flowing t) : Flowing ('\n' :: t) := by
  intro u v hu
  cases u with
  | nil => simp_all
  | cons d u => exact h u v (by simp_all)

/-- A comment may go on behind a line break. -/
theorem flowing_break (br : LineBreak) (hc : isComment t = true) (h : Flowing t) :
    Flowing (br.text ++ t) := by
  cases br with
  | lf => exact flowing_feed hc h
  | crlf => exact flowing_cons (by decide) (flowing_feed hc h)

theorem flowing_flatMap {α : Type} {f : α → Text} {l : List α} (h : ∀ x ∈ l, Flowing (f x)) :
    Flowing (l.flatMap f) := by
  induction l with
  | nil => exact flowing_of_noFeed (by simp)
  | cons x l ih =>
    rw [List.flatMap_cons]
    exact flowing_append (h x (by simp)) (ih fun y hy => h y (by simp [hy]))

/-- A flowing comment with a last line break is a block. -/
theorem block_of_flowing (br : LineBreak) (hc : isComment t = true) (h : Flowing t) :
    Block (t ++ br.text) where
  first := isComment_append hc
  further := by
    intro u v hu
    rcases List.append_eq_append_iff.mp hu with ⟨x, rfl, hx⟩ | ⟨x, hx, hv⟩
    · left
      cases br with
      | lf => cases x <;> simp_all [LineBreak.text]
      | crlf =>
        cases x with
        | nil => simp [LineBreak.text] at hx
        | cons d x => cases x <;> simp_all [LineBreak.text]
    · cases x with
      | nil =>
        left
        cases br <;> simp_all [LineBreak.text]
      | cons c x =>
        obtain ⟨rfl, rfl⟩ := List.cons_eq_cons.mp hv
        exact .inr (isComment_append (h u x hx))
  ended := by cases br <;> simp [LineBreak.text]

/-- The lines of a block are comments, each with its line break. -/
theorem block_lines (h : Block t) {l : Line} (hl : l ∈ Line.ofText t) :
    isComment l.text = true ∧ l.ending ≠ none := by
  have hended := Line.ending_ofText h.ended
  refine ⟨?_, hended l hl⟩
  obtain ⟨before, lines, hlines⟩ := List.append_of_mem hl
  have ht : t = Line.join before ++ (l.full ++ Line.join lines) := by
    rw [← Line.join_ofText t, hlines]
    simp
  apply isComment_noFeed_append (hended l hl) (b := Line.join lines)
  cases hb : before.getLast? with
  | none =>
    obtain rfl := List.getLast?_eq_none_iff.mp hb
    simpa [ht] using h.first
  | some p =>
    obtain ⟨before, rfl⟩ := List.getLast?_eq_some_iff.mp hb
    have hp : p.ending ≠ none := hended p (by simp [hlines])
    obtain ⟨x, hx⟩ := Line.full_eq_concat hp
    obtain ⟨y, hy⟩ := Line.full_eq_concat (hended l hl)
    rcases h.further (Line.join before ++ x) (l.full ++ Line.join lines) (by simp [ht, hx]) with
      hnil | hc
    · simp [hy] at hnil
    · exact hc

theorem block_ne_nil (h : Block t) : Line.ofText t ≠ [] := by
  apply Line.ofText_ne_nil
  rintro rfl
  simpa using h.ended

end Comment
end TripleSlash
