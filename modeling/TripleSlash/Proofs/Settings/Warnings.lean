import TripleSlash.Proofs.Document.Blocks
import TripleSlash.Settings.File

/-! What it is worth that settings have no warnings. The check of a template takes every blank in
front of the slashes for an indent and does not see the line feeds of the template. Apart from that
it is sound: where it has nothing to warn of, every line that a pass writes is a comment. -/
namespace TripleSlash

open Template Comment

variable {t : Text} {s : Settings} {mode : Mode} {source text : Text} {n : Nat}

/-- The lines of a text that its own line feeds begin. -/
def Text.furtherLines (t : Text) : List Text := (splitAtChars (· == '\n') t).tail

theorem Text.splitAtChars_eq_cons (p : Char → Bool) (t : Text) :
    ∃ piece pieces, splitAtChars p t = piece :: pieces ∧ piece <+: t := by
  induction t with
  | nil => exact ⟨[], [], rfl, List.nil_prefix⟩
  | cons c t ih =>
    obtain ⟨piece, pieces, hp, hpre⟩ := ih
    by_cases hc : p c
    · exact ⟨[], splitAtChars p t, by simp [splitAtChars, hc], List.nil_prefix⟩
    · refine ⟨c :: piece, pieces, ?_, by simpa using hpre⟩
      have hstep : splitAtChars p (c :: t) = (splitAtChars p t).modifyHead (c :: ·) := by
        simp [splitAtChars, hc]
      rw [hstep, hp]
      rfl

theorem flowing_of_furtherLines (h : ∀ line ∈ t.furtherLines, isComment line = true) :
    Flowing t := by
  induction t with
  | nil => exact flowing_of_noFeed (by simp)
  | cons c t ih =>
    obtain ⟨piece, pieces, hp, rest, hrest⟩ := Text.splitAtChars_eq_cons (· == '\n') t
    by_cases hc : c = '\n'
    · have hlines : Text.furtherLines (c :: t) = piece :: pieces := by
        rw [← hp]
        simp [Text.furtherLines, Text.splitAtChars, hc]
      have hfirst : isComment t = true := hrest ▸ isComment_append (h piece (by simp [hlines]))
      have hflow : Flowing t := ih fun line hline => h line (by
        simp only [Text.furtherLines, hp, List.tail_cons] at hline
        simp [hlines, hline])
      exact hc ▸ flowing_feed hfirst hflow
    · have hlines : Text.furtherLines (c :: t) = Text.furtherLines t := by
        have hstep : Text.splitAtChars (· == '\n') (c :: t) =
            (Text.splitAtChars (· == '\n') t).modifyHead (c :: ·) := by
          simp [Text.splitAtChars, hc]
        rw [Text.furtherLines, hstep, hp]
        simp [Text.furtherLines, hp]
      exact flowing_cons hc (ih fun line hline => h line (hlines ▸ hline))

/-- A template on which the check can be relied: its own further lines are comments, and no other
blanks than those that indent a line stand in front of a piece. -/
structure Template.Plain (t : Text) : Prop where
  lines : ∀ line ∈ t.furtherLines, isComment line = true
  blanks : ∀ piece ∈ Text.splitOn (hole "nl") t, ∀ c ∈ piece.takeWhile isBlank, isIndent c = true

instance (t : Text) : Decidable (Template.Plain t) :=
  decidable_of_iff ((∀ line ∈ t.furtherLines, isComment line = true) ∧
      ∀ piece ∈ Text.splitOn (hole "nl") t, (piece.takeWhile isBlank).all isIndent = true)
    ⟨fun h => ⟨h.1, fun piece hp => List.all_eq_true.mp (h.2 piece hp)⟩,
      fun h => ⟨h.lines, fun piece hp => List.all_eq_true.mpr (h.blanks piece hp)⟩⟩

theorem isComment_of_slashes (h : "///".toList.isPrefixOf (t.dropWhile isBlank) = true)
    (hb : ∀ c ∈ t.takeWhile isBlank, isIndent c = true) : isComment t = true := by
  obtain ⟨rest, hr⟩ := List.isPrefixOf_iff_prefix.mp h
  refine isComment_iff_exists.mpr ⟨t.takeWhile isBlank, rest, hb, ?_⟩
  rw [hr, List.takeWhile_append_dropWhile]

theorem lined_of_keepsComments (h : Settings.keepsComments t = true) (hp : Template.Plain t) :
    Template.Lined t where
  flowing := flowing_of_furtherLines hp.lines
  pieces piece hpiece :=
    isComment_of_slashes (List.all_eq_true.mp h piece hpiece) (hp.blanks piece hpiece)

namespace Settings

theorem keepsComments_of_no_warnings (h : s.warnings = []) (slot : Templates.Slot) :
    keepsComments (s.templates.template slot) = true := by
  have hdoubtful : s.doubtful = [] := List.map_eq_nil_iff.mp h
  simpa using List.filter_eq_nil_iff.mp hdoubtful slot slot.mem_all

/-- Without warnings every line that a pass writes is a comment, so that later passes find it. -/
theorem pass_comments (h : s.warnings = [])
    (hp : ∀ slot, Template.Plain (s.templates.template slot))
    (ht : .insert n text ∈ (s.pass mode source).edits) :
    ∀ l ∈ Line.ofText text, isComment l.text = true ∧ l.ending ≠ none := by
  have hlined : s.templates.Lined := fun slot =>
    lined_of_keepsComments (keepsComments_of_no_warnings h slot) (hp slot)
  have ho : (s.options mode (Line.firstBreak (Line.ofText source))).Commenting (s.lineBreak _) :=
    ⟨hlined, rfl⟩
  rw [pass_edits] at ht
  have hblock : Block text := Scan.ensures_placed ho (Scan.ensures_block ho)
    (Scan.noFeed_of_proper (Line.proper_ofText source)) Scan.sound_neutral ht
  intro l hl
  exact block_lines hblock hl

/-- The settings where only the template of types is set. -/
def typed (t : Text) : Settings := { default with templates := Templates.stock.put .type t }

/-- A template with an indent and a line of its own. -/
def twoLined : Settings := typed "\t/// A type.\n/// It has no more lines."

theorem pass_comments_twoLined : twoLined.warnings = [] ∧
    (∀ slot, Template.Plain (twoLined.templates.template slot)) ∧
    .insert 1 "\t/// A type.\n/// It has no more lines.\r\n" ∈
      (twoLined.pass .fillMissing "// Code.\r\npublic class A { }\r\n").edits ∧
    ∀ l ∈ Line.ofText "\t/// A type.\n/// It has no more lines.\r\n",
      isComment l.text = true ∧ l.ending ≠ none := by
  have hwarnings : twoLined.warnings = [] := by decide +kernel
  have hplain : ∀ slot, Template.Plain (twoLined.templates.template slot) := by
    intro slot
    cases slot <;> decide +kernel
  have hinsert : .insert 1 "\t/// A type.\n/// It has no more lines.\r\n" ∈
      (twoLined.pass .fillMissing "// Code.\r\npublic class A { }\r\n").edits := by decide +kernel
  exact ⟨hwarnings, hplain, hinsert, pass_comments hwarnings hplain hinsert⟩

/-- The check has nothing to say of a blank that indents no line, nor of a line feed. -/
theorem warnings_overlooked :
    ((typed "\u00a0/// A type.").warnings = [] ∧
      ((typed "\u00a0/// A type.").pass .fillMissing "public class A\n").edits =
        [.insert 0 "\u00a0/// A type.\n"] ∧
      isComment "\u00a0/// A type." = false) ∧
    (typed "/// A type.\nIt has a name.").warnings = [] ∧
      ((typed "/// A type.\nIt has a name.").pass .fillMissing "public class A\n").edits =
        [.insert 0 "/// A type.\nIt has a name.\n"] ∧
      isComment "It has a name." = false := by
  decide +kernel

end Settings
end TripleSlash
