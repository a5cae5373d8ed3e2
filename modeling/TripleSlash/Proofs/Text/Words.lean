import Mathlib.Data.List.TakeWhile
import TripleSlash.Text.Blank
import TripleSlash.Text.Word

/-! Texts that are cut into words and the blanks between them. There is one way to cut them. -/
namespace TripleSlash

/-- A text of characters of a class. -/
structure Stretch (accepts : Char → Bool) where
  text : Text
  all : ∀ c ∈ text, accepts c = true

/-- A text of characters of a class that is not empty. -/
structure Stretch1 (accepts : Char → Bool) extends Stretch accepts where
  ne : text ≠ []

/-- A text whose characters are checked. -/
def Stretch.of {accepts : Char → Bool} (t : Text) (h : t.all accepts = true) : Stretch accepts :=
  ⟨t, List.all_eq_true.mp h⟩

def Stretch1.of {accepts : Char → Bool} (t : Text) (h : t.all accepts = true ∧ t ≠ []) :
    Stretch1 accepts :=
  ⟨.of t h.1, h.2⟩

def Stretch.empty {accepts : Char → Bool} : Stretch accepts := .of "" rfl

/-- One blank. -/
def Stretch.blank : Stretch isBlank := .of " " (by decide)

def Stretch1.blank : Stretch1 isBlank := ⟨.blank, by decide⟩

namespace Text

variable {p q : Char → Bool} {c : Char} {t x y : Text}

/-- A text that does not begin with a character of a class. -/
def Stops (p : Char → Bool) (t : Text) : Prop := ∀ c ∈ t.head?, p c = false

@[simp] theorem stops_nil : Stops p [] := by simp [Stops]

@[simp] theorem stops_cons : Stops p (c :: t) ↔ p c = false := by simp [Stops]

theorem stops_append (hx : x ≠ []) : Stops p (x ++ y) ↔ Stops p x := by
  cases x with
  | nil => exact absurd rfl hx
  | cons c x => simp

theorem Stops.append (hx : Stops p x) (hy : Stops p y) : Stops p (x ++ y) := by
  cases x with
  | nil => exact hy
  | cons c x => exact hx

theorem Stops.mono (h : Stops p t) (hq : ∀ c, q c = true → p c = true) : Stops q t := by
  intro c hc
  by_contra hne
  have hp := hq c (by simpa using hne)
  simp [h c hc] at hp

theorem takeWhile_of_stops (h : Stops p t) : t.takeWhile p = [] := by
  cases t with
  | nil => rfl
  | cons c t => simp [stops_cons.mp h]

theorem dropWhile_of_stops (h : Stops p t) : t.dropWhile p = t := by
  cases t with
  | nil => rfl
  | cons c t => simp [stops_cons.mp h]

theorem takeWhile_stretch (hx : ∀ c ∈ x, p c = true) (hy : Stops p y) :
    (x ++ y).takeWhile p = x := by
  rw [List.takeWhile_append_of_pos hx, takeWhile_of_stops hy, List.append_nil]

theorem dropWhile_stretch (hx : ∀ c ∈ x, p c = true) (hy : Stops p y) :
    (x ++ y).dropWhile p = y := by
  rw [List.dropWhile_append_of_pos hx, dropWhile_of_stops hy]

theorem stops_dropWhile (p : Char → Bool) (t : Text) : Stops p (t.dropWhile p) := by
  intro c hc
  have := List.head?_dropWhile_not p t
  rw [Option.mem_def] at hc
  simpa [hc] using this

/-- A text is cut behind a stretch in one way. -/
theorem stretch_inj {x' y' : Text} (hx : ∀ c ∈ x, p c = true) (hx' : ∀ c ∈ x', p c = true)
    (hy : Stops p y) (hy' : Stops p y') (h : x ++ y = x' ++ y') : x = x' ∧ y = y' := by
  have hcut := congrArg (·.takeWhile p) h
  simp only [takeWhile_stretch hx hy, takeWhile_stretch hx' hy'] at hcut
  subst hcut
  exact ⟨rfl, List.append_cancel_left h⟩

end Text

theorem Stretch.stops {p q : Char → Bool} (x : Stretch p) (hpq : ∀ c, p c = true → q c = false) :
    Text.Stops q x.text := by
  cases hx : x.text with
  | nil => exact Text.stops_nil
  | cons c t => exact Text.stops_cons.mpr (hpq c (x.all c (by simp [hx])))

theorem Stretch1.stops {p q : Char → Bool} (x : Stretch1 p) (hpq : ∀ c, p c = true → q c = false)
    (y : Text) : Text.Stops q (x.text ++ y) := by
  cases hx : x.text with
  | nil => exact absurd hx x.ne
  | cons c t => exact Text.stops_cons.mpr (hpq c (x.all c (by simp [hx])))

theorem isWord_eq_false_of_isBlank (c : Char) (h : isBlank c = true) : isWord c = false := by
  have hall : ∀ n ∈ ([0x9, 0xA, 0xB, 0xC, 0xD, 0x20, 0x85, 0xA0, 0x1680, 0x2000, 0x2001, 0x2002,
      0x2003, 0x2004, 0x2005, 0x2006, 0x2007, 0x2008, 0x2009, 0x200A, 0x2028, 0x2029, 0x202F,
      0x205F, 0x3000] : List Nat), isWord (Char.ofNat n) = false := by decide +kernel
  have hmem := hall c.toNat (by simp [isBlank] at h; simp; omega)
  rwa [Char.ofNat_toNat] at hmem

theorem isBlank_eq_false_of_isWord (c : Char) (h : isWord c = true) : isBlank c = false := by
  by_contra hc
  simp [isWord_eq_false_of_isBlank c (by simpa using hc)] at h

theorem Stretch.not_mem {p : Char → Bool} {d : Char} (x : Stretch p) (hd : p d = false) :
    d ∉ x.text := fun h => by simp [x.all d h] at hd

theorem beq_eq_false_of_class {p : Char → Bool} {c d : Char} (hc : p c = true)
    (hd : p d = false) : (c == d) = false := by
  rw [beq_eq_false_iff_ne]
  rintro rfl
  simp [hc] at hd

theorem Stretch1.stops_ne {p : Char → Bool} {d : Char} (x : Stretch1 p) (hd : p d = false)
    (y : Text) : Text.Stops (· == d) (x.text ++ y) :=
  x.stops (fun _ hc => beq_eq_false_of_class hc hd) y

/-- A word and the blanks behind it. -/
structure SpacedWord where
  word : Stretch1 isWord
  space : Stretch1 isBlank

namespace SpacedWord

def text (w : SpacedWord) : Text := w.word.text ++ w.space.text

/-- The words of a list with their blanks. -/
def line (ws : List SpacedWord) : Text := ws.flatMap text

/-- The words of a list without the blanks. -/
def words (ws : List SpacedWord) : List Text := ws.map (·.word.text)

variable {w w' : SpacedWord} {ws ws' : List SpacedWord} {t t' : Text}

@[simp] theorem line_nil : line [] = [] := rfl

@[simp] theorem line_cons (w : SpacedWord) (ws : List SpacedWord) :
    line (w :: ws) = w.word.text ++ (w.space.text ++ line ws) := by simp [line, text]

@[simp] theorem line_append (ws ws' : List SpacedWord) :
    line (ws ++ ws') = line ws ++ line ws' := by simp [line]

@[simp] theorem words_nil : words [] = [] := rfl

@[simp] theorem words_cons (w : SpacedWord) (ws : List SpacedWord) :
    words (w :: ws) = w.word.text :: words ws := rfl

@[simp] theorem words_append (ws ws' : List SpacedWord) :
    words (ws ++ ws') = words ws ++ words ws' := by simp [words]

theorem stops_line_append (ws : List SpacedWord) (ht : Text.Stops isBlank t) :
    Text.Stops isBlank (line ws ++ t) := by
  cases ws with
  | nil => exact ht
  | cons w ws =>
    rw [line_cons, List.append_assoc]
    exact w.word.stops isBlank_eq_false_of_isWord _

/-- The first word of a text and the blanks behind it can be told from what follows. -/
theorem text_inj (ht : Text.Stops isBlank t) (ht' : Text.Stops isBlank t')
    (h : w.word.text ++ (w.space.text ++ t) = w'.word.text ++ (w'.space.text ++ t')) :
    w = w' ∧ t = t' := by
  obtain ⟨hword, hrest⟩ := Text.stretch_inj w.word.all w'.word.all
    (w.space.stops isWord_eq_false_of_isBlank t) (w'.space.stops isWord_eq_false_of_isBlank t') h
  obtain ⟨hspace, ht⟩ := Text.stretch_inj w.space.all w'.space.all ht ht' hrest
  obtain ⟨⟨⟨_, _⟩, _⟩, ⟨⟨_, _⟩, _⟩⟩ := w
  obtain ⟨⟨⟨_, _⟩, _⟩, ⟨⟨_, _⟩, _⟩⟩ := w'
  cases hword
  cases hspace
  exact ⟨rfl, ht⟩

/-- Of two ways to take words off a text one goes on where the other ends. -/
theorem line_append_inj (ht : Text.Stops isBlank t) (ht' : Text.Stops isBlank t')
    (h : line ws ++ t = line ws' ++ t') :
    (∃ more, ws' = ws ++ more ∧ t = line more ++ t') ∨
      ∃ more, ws = ws' ++ more ∧ t' = line more ++ t := by
  induction ws generalizing ws' with
  | nil => exact .inl ⟨ws', rfl, h⟩
  | cons w ws ih =>
    cases ws' with
    | nil => exact .inr ⟨w :: ws, rfl, h.symm⟩
    | cons w' ws' =>
      simp only [line_cons, List.append_assoc] at h
      obtain ⟨rfl, hrest⟩ := text_inj (stops_line_append ws ht) (stops_line_append ws' ht') h
      rcases ih hrest with ⟨more, rfl, ht⟩ | ⟨more, rfl, ht⟩
      · exact .inl ⟨more, rfl, ht⟩
      · exact .inr ⟨more, rfl, ht⟩

end SpacedWord

namespace Text

variable {p : Char → Bool} {x y : Text}

theorem splitAtChars_append (hx : ∀ c ∈ x, p c = false) :
    splitAtChars p (x ++ y) = (splitAtChars p y).modifyHead (x ++ ·) := by
  induction x with
  | nil => cases h : splitAtChars p y <;> simp [h]
  | cons c x ih =>
    have ih := ih fun d hd => hx d (by simp [hd])
    simp only [splitAtChars] at ih ⊢
    simp only [List.cons_append, List.foldr_cons, hx c (by simp), ih]
    generalize List.foldr _ [[]] y = pieces
    cases pieces <;> simp

/-- Separators that stand at the front leave no field. -/
theorem fields_of_all (hx : ∀ c ∈ x, p c = true) : fields p (x ++ y) = fields p y := by
  induction x with
  | nil => rfl
  | cons c x ih =>
    have ih := ih fun d hd => hx d (by simp [hd])
    rw [← ih]
    simp [fields, splitAtChars, hx c (by simp)]

/-- A field ends where a separator follows. -/
theorem fields_append (hne : x ≠ []) (hx : ∀ c ∈ x, p c = false)
    (hy : ∀ c ∈ y.head?, p c = true) : fields p (x ++ y) = x :: fields p y := by
  cases y with
  | nil =>
    rw [fields, splitAtChars_append hx]
    simp [fields, splitAtChars, hne]
  | cons c y =>
    have hc : p c = true := hy c rfl
    rw [fields, splitAtChars_append hx]
    simp [fields, splitAtChars, hc, hne]

end Text

namespace SpacedWord

/-- The fields of a text that begins with words are these words and the fields of the rest. -/
theorem fields_line_append (ws : List SpacedWord) (t : Text) :
    Text.fields isBlank (line ws ++ t) = words ws ++ Text.fields isBlank t := by
  induction ws with
  | nil => rfl
  | cons w ws ih =>
    have hblank : ∀ c ∈ w.word.text, isBlank c = false := fun c hc =>
      isBlank_eq_false_of_isWord c (w.word.all c hc)
    have hspace : ∀ c ∈ (w.space.text ++ (line ws ++ t)).head?, isBlank c = true := by
      intro c hc
      cases hs : w.space.text with
      | nil => exact absurd hs w.space.ne
      | cons d s =>
        obtain rfl : d = c := by simpa [hs] using hc
        exact w.space.all d (by simp [hs])
    rw [line_cons, List.append_assoc, List.append_assoc, Text.fields_append w.word.ne hblank hspace,
      Text.fields_of_all w.space.all, ih]
    rfl

end SpacedWord
end TripleSlash
