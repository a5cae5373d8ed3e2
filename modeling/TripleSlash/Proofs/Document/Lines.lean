import TripleSlash.Document.Line

/-! Lines that are written as a text and read back from it. -/
namespace TripleSlash.Line

variable {c : Char} {t x : Text} {l : Line} {lines : List Line}

/-- A line whose text and break can be told apart once it is written. -/
structure Plain (l : Line) : Prop where
  noFeed : '\n' ∉ l.text
  noReturn : l.ending = some .lf → l.text.getLast? ≠ some '\r'
  nonempty : l.ending = none → l.text ≠ []

/-- Lines of a document: only the last one may go without a line break. -/
def Proper : List Line → Prop
  | [] => True
  | l :: lines => l.Plain ∧ (lines ≠ [] → l.ending ≠ none) ∧ Proper lines

@[simp] theorem join_append (a b : List Line) : join (a ++ b) = join a ++ join b :=
  List.flatMap_append

theorem ofText_cons (c : Char) (t : Text) : ofText (c :: t) = cons c (ofText t) := rfl

theorem ofText_append (a b : Text) : ofText (a ++ b) = a.foldr cons (ofText b) := by
  simp [ofText]

theorem cons_nil (hc : c ≠ '\n') : cons c [] = [⟨[c], none⟩] := by
  simp only [cons]

theorem cons_cons (hc : c ≠ '\n') (hr : c = '\r' → l.text = [] → l.ending ≠ some .lf) :
    cons c (l :: lines) = { l with text := c :: l.text } :: lines := by
  have he : c = '\r' → l ≠ ⟨[], some .lf⟩ := by
    rintro h rfl
    exact hr h rfl rfl
  simp only [cons]

/-- Text in front of a line becomes part of the line. -/
theorem foldr_cons (hx : '\n' ∉ x)
    (hr : l.text = [] → l.ending = some .lf → x.getLast? ≠ some '\r') :
    x.foldr cons (l :: lines) = { l with text := x ++ l.text } :: lines := by
  induction x with
  | nil => rfl
  | cons c x ih =>
    simp only [List.mem_cons, not_or] at hx
    have hx' : x.foldr cons (l :: lines) = { l with text := x ++ l.text } :: lines := by
      apply ih hx.2
      intro ht he hlast
      apply hr ht he
      cases x with
      | nil => simp at hlast
      | cons d x => simpa using hlast
    rw [List.foldr_cons, hx', cons_cons (Ne.symm hx.1)]
    · rfl
    · intro hcr ht he
      obtain ⟨rfl, ht⟩ := List.append_eq_nil_iff.mp ht
      exact hr ht he (by simp [hcr])

theorem ofText_break (b : LineBreak) (t : Text) :
    ofText (b.text ++ t) = ⟨[], some b⟩ :: ofText t := by
  cases b <;> rfl

/-- A line with its break is cut off whole. -/
theorem ofText_full_append (hl : l.Plain) (he : l.ending ≠ none) :
    ofText (l.full ++ t) = l :: ofText t := by
  obtain ⟨text, ending⟩ := l
  cases ending with
  | none => exact absurd rfl he
  | some b =>
    have hfull : full ⟨text, some b⟩ ++ t = text ++ (b.text ++ t) := by simp [full]
    rw [hfull, ofText_append, ofText_break, foldr_cons hl.noFeed]
    · simp
    · intro _ hb
      exact hl.noReturn hb

/-- Whole lines are cut off whole. -/
theorem ofText_join_append (h : ∀ l ∈ lines, l.Plain ∧ l.ending ≠ none) (t : Text) :
    ofText (join lines ++ t) = lines ++ ofText t := by
  induction lines with
  | nil => rfl
  | cons l lines ih =>
    obtain ⟨hl, he⟩ := h l (by simp)
    rw [join_cons, List.append_assoc, ofText_full_append hl he,
      ih fun l' hl' => h l' (by simp [hl'])]
    rfl

theorem ofText_noFeed (hx : '\n' ∉ x) (hne : x ≠ []) : ofText x = [⟨x, none⟩] := by
  induction x with
  | nil => exact absurd rfl hne
  | cons c x ih =>
    simp only [List.mem_cons, not_or] at hx
    rw [ofText_cons]
    cases x with
    | nil => exact cons_nil (Ne.symm hx.1)
    | cons d x => rw [ih hx.2 (by simp), cons_cons (Ne.symm hx.1) (by simp)]

/-- Behind a line without a line break there is no other line. -/
theorem Proper.eq_nil (h : Proper (l :: lines)) (he : l.ending = none) : lines = [] :=
  Classical.byContradiction fun hne => h.2.1 hne he

theorem proper_cons (h : Proper lines) : Proper (cons c lines) := by
  fun_cases cons c lines with
  | case1 => exact ⟨⟨by simp, by simp, by simp⟩, by simp, h⟩
  | case2 => exact ⟨⟨by simp, by simp, by simp⟩, by simp, h.2.2⟩
  | case3 c hc => exact ⟨⟨by simpa using Ne.symm hc, by simp, by simp⟩, by simp, trivial⟩
  | case4 c l lines hc hcr =>
    refine ⟨⟨by simpa using ⟨Ne.symm hc, h.1.noFeed⟩, ?_, by simp⟩, h.2.1, h.2.2⟩
    intro he
    obtain ⟨text, ending⟩ := l
    cases text with
    | nil => simpa using fun h => hcr h (by simpa using he)
    | cons d x => simpa using h.1.noReturn he

theorem proper_ofText (t : Text) : Proper (ofText t) := by
  induction t with
  | nil => trivial
  | cons c t ih => exact proper_cons ih

/-- Lines that are written are read back. -/
theorem ofText_join (h : Proper lines) : ofText (join lines) = lines := by
  induction lines with
  | nil => rfl
  | cons l lines ih =>
    rw [join_cons]
    by_cases he : l.ending = none
    · obtain rfl := h.eq_nil he
      obtain ⟨text, ending⟩ := l
      subst he
      simpa [full] using ofText_noFeed h.1.noFeed (h.1.nonempty rfl)
    · rw [ofText_full_append h.1 he, ih h.2.2]

theorem proper_append {a b : List Line} (ha : ∀ l ∈ a, l.Plain ∧ l.ending ≠ none)
    (hb : Proper b) : Proper (a ++ b) := by
  induction a with
  | nil => exact hb
  | cons l a ih =>
    have hl := ha l (by simp)
    exact ⟨hl.1, fun _ => hl.2, ih fun l h => ha l (by simp [h])⟩

/-- Without line breaks there is at most one line. -/
theorem eq_of_no_break (h : Proper lines) (he : lines.findSome? ending = none) :
    lines = [] ∨ ∃ l, l.Plain ∧ lines = [l] := by
  cases lines with
  | nil => exact .inl rfl
  | cons l lines =>
    have hl : l.ending = none := List.findSome?_eq_none_iff.mp he l (by simp)
    exact .inr ⟨l, h.1, by rw [h.eq_nil hl]⟩

/-- A line feed ends a line. -/
theorem findSome?_ne_none (hf : '\n' ∈ t) : (ofText t).findSome? ending ≠ none := by
  intro hb
  rw [← join_ofText t] at hf
  rcases eq_of_no_break (proper_ofText t) hb with hnil | ⟨l, hl, hone⟩
  · simp [hnil] at hf
  · have hend : l.ending = none := List.findSome?_eq_none_iff.mp hb l (by simp [hone])
    simp [hone, full, hend, hl.noFeed] at hf

theorem plain_of_mem (h : Proper lines) (hl : l ∈ lines) : l.Plain := by
  induction lines with
  | nil => simp at hl
  | cons l' lines ih =>
    rcases List.mem_cons.mp hl with rfl | hl
    · exact h.1
    · exact ih h.2.2 hl

theorem plain_of_mem_ofText (hl : l ∈ ofText t) : l.Plain := plain_of_mem (proper_ofText t) hl

theorem ofText_ne_nil (h : t ≠ []) : ofText t ≠ [] := by
  intro hn
  apply h
  rw [← join_ofText t, hn]
  rfl

theorem full_eq_concat (he : l.ending ≠ none) : ∃ x, l.full = x ++ ['\n'] := by
  obtain ⟨text, ending⟩ := l
  match ending, he with
  | some .lf, _ => exact ⟨text, rfl⟩
  | some .crlf, _ => exact ⟨text ++ ['\r'], by simp [full, LineBreak.text]⟩

theorem ending_cons (hl : lines ≠ []) (he : ∀ l ∈ lines, l.ending ≠ none) :
    ∀ l ∈ cons c lines, l.ending ≠ none := by
  fun_cases cons c lines <;> simp_all

/-- A text that ends in a line break has no other lines than ended ones. -/
theorem ending_ofText (h : t.getLast? = some '\n') : ∀ l ∈ ofText t, l.ending ≠ none := by
  induction t with
  | nil => simp at h
  | cons c t ih =>
    rw [ofText_cons]
    cases t with
    | nil =>
      obtain rfl : c = '\n' := by simpa using h
      simp [ofText, cons]
    | cons d t => exact ending_cons (ofText_ne_nil (by simp)) (ih (by simpa using h))

end TripleSlash.Line
