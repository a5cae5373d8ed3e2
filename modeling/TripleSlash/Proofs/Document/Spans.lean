import Mathlib.Data.List.Basic
import Mathlib.Data.List.Forall2
import TripleSlash.Document.Span
import TripleSlash.Proofs.Document.Lines

/-! The places of the lines of a document. They are found one behind the other and leave no byte of
the text out. -/
namespace TripleSlash

namespace Line

variable {l : Line} {lines : List Line} {u v : Text}

/-- The line break of a line, empty where the line has none. -/
def breakText (l : Line) : Text := (l.ending.map LineBreak.text).getD []

/-- A line is its text, or it is the text with a line feed behind it, or with a carriage return in
front of the line feed. -/
theorem full_cases (l : Line) :
    l.full = l.text ∧ l.breakText = [] ∧ l.ending = none ∨
      l.full = l.text ++ ['\n'] ∧ l.breakText = ['\n'] ∧ l.ending = some .lf ∨
      l.full = l.text ++ ['\r', '\n'] ∧ l.breakText = ['\r', '\n'] ∧ l.ending = some .crlf := by
  obtain ⟨x, ending⟩ := l
  match ending with
  | none => exact .inl ⟨by simp [full], rfl, rfl⟩
  | some .lf => exact .inr (.inl ⟨rfl, rfl, rfl⟩)
  | some .crlf => exact .inr (.inr ⟨rfl, rfl, rfl⟩)

theorem Plain.full_ne (h : l.Plain) : l.full ≠ [] := by
  rcases l.full_cases with ⟨hf, -, he⟩ | ⟨hf, -⟩ | ⟨hf, -⟩
  · exact hf ▸ h.nonempty he
  · simp [hf]
  · simp [hf]

/-- A carriage return belongs to the line break where a line feed follows it. -/
theorem Plain.carriage (h : l.Plain) (hr : l.full = u ++ '\r' :: v) :
    l.text.length ≤ u.length ↔ ∃ w, v = '\n' :: w := by
  have hlength := congrArg List.length hr
  constructor
  · intro hle
    rcases l.full_cases with ⟨hf, -⟩ | ⟨hf, -⟩ | ⟨hf, -⟩
    · simp only [hf, List.length_append, List.length_cons] at hlength
      omega
    · simp only [hf, List.length_append, List.length_cons, List.length_nil] at hlength
      have hend := (List.append_inj (hf.symm.trans hr) (by omega)).2
      simp at hend
    · simp only [hf, List.length_append, List.length_cons, List.length_nil] at hlength
      cases v with
      | nil =>
        -- The last character of the line is its line feed.
        have hlast := congrArg List.getLast? (hf.symm.trans hr)
        simp at hlast
      | cons d w =>
        simp only [List.length_cons] at hlength
        obtain ⟨-, hend⟩ := List.append_inj (hf.symm.trans hr) (by omega)
        obtain ⟨-, hend⟩ := List.cons.inj hend
        exact ⟨[], hend.symm⟩
  · rintro ⟨w, rfl⟩
    -- A line has one line feed, so what stands in front of it is cut off in one way only.
    have hcut : l.full = (u ++ ['\r']) ++ '\n' :: w := by simpa using hr
    rcases l.full_cases with ⟨hf, -⟩ | ⟨hf, -, he⟩ | ⟨hf, -⟩
    · exact absurd (by simp [← hf, hcut]) h.noFeed
    · have hstem := (List.append_cons_inj_of_notMem h.noFeed (by simp)).mp (hf.symm.trans hcut)
      exact absurd (by simp [hstem.1]) (h.noReturn he)
    · have hfeed : '\n' ∉ l.text ++ ['\r'] := by simp [h.noFeed]
      have hcrlf : l.full = (l.text ++ ['\r']) ++ '\n' :: [] := by simp [hf]
      have hstem := (List.append_cons_inj_of_notMem hfeed (by simp)).mp (hcrlf.symm.trans hcut)
      exact Nat.le_of_eq (congrArg List.length (List.append_cancel_right hstem.1))

/-- Behind a line without a line break the text has ended. -/
theorem Proper.join_eq_nil (h : Proper (l :: lines)) (he : l.ending = none) : join lines = [] := by
  rw [h.eq_nil he, join_nil]

end Line

namespace Span

open Line

variable {t x before after : Text} {l : Line} {lines : List Line} {a b n : Nat}
  {spans : List Span}

/-- The place of a line that begins at a byte. -/
def ofLine (start : Nat) (l : Line) : Span :=
  ⟨start, start + l.text.byteSize, start + l.full.byteSize⟩

/-- The places of lines that follow one another from a byte on. -/
def ofLines : Nat → List Line → List Span
  | _, [] => []
  | start, l :: lines => ofLine start l :: ofLines (start + l.full.byteSize) lines

/-- The same place in a text that has `n` more bytes in front. -/
def shift (n : Nat) (s : Span) : Span := ⟨n + s.start, n + s.stop, n + s.next⟩

/-- Lines that follow one another from one byte to another, none of them empty. -/
inductive Tile : Nat → List Span → Nat → Prop
  | nil (a : Nat) : Tile a [] a
  | cons {s : Span} {spans : List Span} {b : Nat} (text : s.start ≤ s.stop)
      (ending : s.stop ≤ s.next) (nonempty : s.start < s.next) (rest : Tile s.next spans b) :
      Tile s.start (s :: spans) b

/-- A line stands at a place of a text. Only the last line goes without a line break, and a carriage
return is part of a line break where a line feed follows it in its line. -/
structure Holds (t : Text) (s : Span) (l : Line) : Prop where
  text : t.slice? s.start s.stop = some l.text
  ending : t.slice? s.stop s.next = some l.breakText
  noFeed : '\n' ∉ l.text
  form : l.breakText = ['\n'] ∨ l.breakText = ['\r', '\n'] ∨
    l.breakText = [] ∧ s.next = t.byteSize
  carriage : ∀ u v, l.text ++ l.breakText = u ++ '\r' :: v →
    (l.text.length ≤ u.length ↔ ∃ w, v = '\n' :: w)

/-! One line -/

theorem slice?_before : (before ++ after).slice? (before.byteSize - 1) before.byteSize =
    some ['\r'] ↔ before.getLast? = some '\r' := by
  rw [Text.slice?_eq_some_iff]
  constructor
  · rintro ⟨x, z, ht, -, hb⟩
    rw [← List.append_assoc] at ht
    rw [← Text.byteSize_append] at hb
    obtain ⟨rfl, -⟩ := Text.append_inj_of_byteSize ht hb.symm
    simp
  · intro hlast
    obtain ⟨x, rfl⟩ := List.getLast?_eq_some_iff.mp hlast
    have hsize : Text.byteSize ['\r'] = 1 := rfl
    exact ⟨x, after, by simp, by simp [hsize], by simp⟩

/-- A line that ends in a line feed. -/
theorem at?_feed (before : Text) (hx : '\n' ∉ x) (after : Text) :
    at? (before ++ (x ++ '\n' :: after)) before.byteSize = some
      ⟨before.byteSize, before.byteSize + x.byteSize - if x.getLast? = some '\r' then 1 else 0,
        before.byteSize + x.byteSize + 1⟩ := by
  have hreturn : (before.byteSize < before.byteSize + x.byteSize ∧
      (before ++ (x ++ '\n' :: after)).slice? (before.byteSize + x.byteSize - 1)
        (before.byteSize + x.byteSize) = some ['\r']) ↔ x.getLast? = some '\r' := by
    rw [← List.append_assoc, ← Text.byteSize_append, slice?_before]
    cases hlast : x.getLast? with
    | none => simp [List.getLast?_eq_none_iff.mp hlast]
    | some c =>
      have hne : x ≠ [] := by
        rintro rfl
        simp at hlast
      simp [Text.byteSize_pos hne, List.getLast?_append, hlast]
  simp only [at?, Text.splitAtByte?_append, Option.map_some, Text.byteIdxOf?_append hx, hreturn]
  split <;> rfl

/-- The line that begins behind a text is found. -/
theorem at?_full (hl : l.Plain) (hlast : l.ending = none → after = []) :
    at? (before ++ (l.full ++ after)) before.byteSize = some (ofLine before.byteSize l) := by
  have hfeed : Text.byteSize ['\n'] = 1 := rfl
  have hreturn : Text.byteSize ['\r'] = 1 := rfl
  rcases l.full_cases with ⟨hf, -, he⟩ | ⟨hf, -, he⟩ | ⟨hf, -, he⟩
  · simp [at?, ofLine, hlast he, hf, Text.splitAtByte?_append, Text.byteIdxOf?_eq_none hl.noFeed]
  · have hat := at?_feed before hl.noFeed after
    rw [if_neg (hl.noReturn he)] at hat
    simpa [ofLine, hf, hfeed, Nat.add_assoc] using hat
  · -- The carriage return is found as the last character in front of the line feed.
    have hx : '\n' ∉ l.text ++ ['\r'] := by simp [hl.noFeed]
    have hat := at?_feed before hx after
    have hcrlf : Text.byteSize ['\r', '\n'] = 2 := rfl
    rw [if_pos (by simp)] at hat
    simpa [ofLine, hf, hreturn, hcrlf, ← Nat.add_assoc] using hat

/-! All lines -/

theorem from?_cons {s : Span} (h : n < t.byteSize) (hs : at? t n = some s) :
    from? t n = (from? t s.next).map (s :: ·) := by
  rw [from?, dif_pos h]
  split
  next s' hs' =>
    obtain rfl := Option.some.inj (hs.symm.trans hs')
    rfl
  next hs' => simp [hs] at hs'

/-- From the first byte of a line on that line is found, and those behind it. -/
theorem from?_join (before : Text) (h : Proper lines) :
    from? (before ++ join lines) before.byteSize = some (ofLines before.byteSize lines) := by
  induction lines generalizing before with
  | nil => simp [from?, ofLines]
  | cons l lines ih =>
    have hpos := Text.byteSize_pos h.1.full_ne
    rw [join_cons, from?_cons (by simp; omega) (at?_full h.1 h.join_eq_nil)]
    have hrest := ih (before ++ l.full) h.2.2
    rw [List.append_assoc, Text.byteSize_append] at hrest
    exact congrArg (Option.map _) hrest

theorem ofText?_eq (t : Text) : ofText? t = some (ofLines 0 (Line.ofText t)) := by
  have h := from?_join [] (proper_ofText t)
  rwa [join_ofText] at h

theorem tile_ofLines (h : ∀ l ∈ lines, l.Plain) :
    Tile a (ofLines a lines) (a + (join lines).byteSize) := by
  induction lines generalizing a with
  | nil => exact .nil a
  | cons l lines ih =>
    have hpos := Text.byteSize_pos (h l (by simp)).full_ne
    have hrest := ih (a := a + l.full.byteSize) fun l hl => h l (by simp [hl])
    rw [Nat.add_assoc, ← Text.byteSize_append] at hrest
    refine .cons (s := ofLine a l) (Nat.le_add_right _ _) ?_ (Nat.lt_add_of_pos_right hpos) hrest
    exact Nat.add_le_add_left (by rw [full, Text.byteSize_append]; exact Nat.le_add_right _ _) a

theorem holds_ofLine (hl : l.Plain) (hlast : l.ending = none → after = []) :
    Holds (before ++ (l.full ++ after)) (ofLine before.byteSize l) l := by
  have hfull : l.full = l.text ++ l.breakText := rfl
  refine ⟨?_, ?_, hl.noFeed, ?_, fun u v => hl.carriage⟩
  · exact Text.slice?_eq_some_iff.mpr ⟨before, l.breakText ++ after, by simp [hfull], rfl, rfl⟩
  · refine Text.slice?_eq_some_iff.mpr ⟨before ++ l.text, after, by simp [hfull], ?_, ?_⟩
    · simp [ofLine]
    · simp [ofLine, hfull, Nat.add_assoc]
  · rcases l.full_cases with ⟨-, hb, he⟩ | ⟨-, hb, -⟩ | ⟨-, hb, -⟩
    · exact .inr (.inr ⟨hb, by simp [ofLine, hlast he]⟩)
    · exact .inl hb
    · exact .inr (.inl hb)

theorem holds_ofLines (before : Text) (h : Proper lines) :
    List.Forall₂ (Holds (before ++ join lines)) (ofLines before.byteSize lines) lines := by
  induction lines generalizing before with
  | nil => exact .nil
  | cons l lines ih =>
    have hrest := ih (before ++ l.full) h.2.2
    rw [List.append_assoc, Text.byteSize_append] at hrest
    exact .cons (holds_ofLine h.1 h.join_eq_nil) hrest

theorem ofLines_append (a : Nat) (lines lines' : List Line) :
    ofLines a (lines ++ lines') =
      ofLines a lines ++ ofLines (a + (join lines).byteSize) lines' := by
  induction lines generalizing a with
  | nil => rfl
  | cons l lines ih =>
    rw [List.cons_append, ofLines, ih, ofLines, join_cons, Text.byteSize_append, Nat.add_assoc]
    rfl

theorem ofLines_shift (n a : Nat) (lines : List Line) :
    ofLines (n + a) lines = (ofLines a lines).map (shift n) := by
  induction lines generalizing a with
  | nil => rfl
  | cons l lines ih =>
    rw [ofLines, Nat.add_assoc, ih, ofLines, List.map_cons]
    simp [shift, ofLine, Nat.add_assoc]

/-- Behind a line break the lines are those of the text that stands there. -/
theorem ofText_append_of_feed (h : t = [] ∨ t.getLast? = some '\n') (b : Text) :
    Line.ofText (t ++ b) = Line.ofText t ++ Line.ofText b := by
  rcases h with rfl | hlast
  · rfl
  · have hlines := ofText_join_append
      (fun l hl => ⟨plain_of_mem_ofText hl, ending_ofText hlast l hl⟩) b
    rwa [join_ofText] at hlines

/-- The lines of a text are found, one behind the other, from its first byte to its last. Those of a
text behind a line break are found there as they are found in that text alone. -/
theorem ofText?_tile (t : Text) : ∃ spans, ofText? t = some spans ∧
    Tile 0 spans t.byteSize ∧ List.Forall₂ (Holds t) spans (Line.ofText t) ∧
    (t = [] ∨ t.getLast? = some '\n' → ∀ b, ∃ more, ofText? b = some more ∧
      ofText? (t ++ b) = some (spans ++ more.map (shift t.byteSize))) := by
  refine ⟨_, ofText?_eq t, ?_, ?_, fun h b => ⟨_, ofText?_eq b, ?_⟩⟩
  · have htile := tile_ofLines (a := 0) fun l (hl : l ∈ Line.ofText t) => plain_of_mem_ofText hl
    rwa [join_ofText, Nat.zero_add] at htile
  · have hholds := holds_ofLines [] (proper_ofText t)
    rwa [join_ofText] at hholds
  · rw [ofText?_eq, ofText_append_of_feed h, ofLines_append, join_ofText, Nat.zero_add]
    exact congrArg (fun more => some (_ ++ more)) (ofLines_shift t.byteSize 0 _)

/-- Behind a line feed that ends an empty line a carriage return that ends no line. -/
theorem ofText?_tile_returns :
    ("é\r\n\n".toList = [] ∨ "é\r\n\n".toList.getLast? = some '\n') ∧
      ofText? "é\r\n\n".toList = some [⟨0, 2, 4⟩, ⟨4, 4, 5⟩] ∧
      Tile 0 [⟨0, 2, 4⟩, ⟨4, 4, 5⟩] 5 ∧
      ofText? ("é\r\n\n".toList ++ "\rb\r".toList) =
        some [⟨0, 2, 4⟩, ⟨4, 4, 5⟩, ⟨5, 8, 8⟩] := by
  obtain ⟨spans, hspans, htile, -, happend⟩ := ofText?_tile "é\r\n\n".toList
  have hfront : ofText? "é\r\n\n".toList = some [⟨0, 2, 4⟩, ⟨4, 4, 5⟩] := by
    rw [ofText?_eq]
    decide
  have hbehind : ofText? "\rb\r".toList = some [⟨0, 3, 3⟩] := by
    rw [ofText?_eq]
    decide
  obtain rfl := Option.some.inj (hspans.symm.trans hfront)
  obtain ⟨more, hmore, hjoined⟩ := happend (.inr rfl) "\rb\r".toList
  obtain rfl := Option.some.inj (hmore.symm.trans hbehind)
  exact ⟨.inr rfl, hfront, htile, hjoined⟩

end Span
end TripleSlash
