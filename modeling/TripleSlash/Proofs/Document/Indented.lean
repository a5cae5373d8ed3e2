import TripleSlash.Proofs.Comment.Rendered
import TripleSlash.Proofs.Document.Written
import TripleSlash.Proofs.Scan.Indented

/-! Indented documents. A pass over a document with an indent in front of every line makes what it
makes of the document, with the indent in front of every line. -/
namespace TripleSlash

open Text

variable {w : Text} {s : Settings} {mode : Mode} {source t : Text} {doc : List Line} {n : Nat}
  {es : List Edit} {l : Line}

namespace Line

theorem proper_drop (h : Proper doc) (n : Nat) : Proper (doc.drop n) := by
  induction n generalizing doc with
  | zero => exact h
  | succ n ih =>
    cases doc with
    | nil => exact h
    | cons l doc => exact ih h.2.2

/-- All lines but the last one of a document are whole. -/
theorem whole_take (h : Proper doc) (hn : n < doc.length) :
    ∀ l ∈ doc.take n, l.Plain ∧ l.ending ≠ none := by
  induction n generalizing doc with
  | zero => simp
  | succ n ih =>
    cases doc with
    | nil => simp at hn
    | cons l doc =>
      have hlt : n < doc.length := Nat.lt_of_succ_lt_succ hn
      have hne : doc ≠ [] := List.ne_nil_of_length_pos (Nat.zero_lt_of_lt hlt)
      rw [List.take_succ_cons, List.forall_mem_cons]
      exact ⟨⟨h.1, h.2.1 hne⟩, ih h.2.2 hlt⟩

theorem piecewise_indented (h : Proper doc) (w : Text) :
    Piecewise (Text.indented w) (indented w) doc where
  back n := (indented_join (proper_drop h n)).symm
  front _ _ t hn := indented_join_append (fun l hl => whole_take h hn l (List.drop_subset _ _ hl)) t

/-- Edits of whole lines, applied to an indented document. -/
theorem apply_indented (h : Proper doc) (hes : ∀ e ∈ es, e.Ended) :
    apply (doc.map (indented w)) (es.map (Edit.mapText (Text.indented w))) =
      (apply doc es).map (Text.indented w) :=
  apply_mapText (piecewise_indented h w) fun n x hx t => indented_append (hes _ hx n x rfl) t

theorem firstBreak_indented (lines : List Line) :
    firstBreak (lines.map (indented w)) = firstBreak lines := by
  simp only [firstBreak, List.findSome?_map]
  rfl

end Line

namespace Settings

/-- Every text that a pass inserts ends in a line break. -/
theorem ended_edits (s : Settings) (mode : Mode) (source : Text) :
    ∀ e ∈ (s.pass mode source).edits, e.Ended := by
  have hbreak : (s.options mode (Line.firstBreak (Line.ofText source))).lineBreak =
      (s.lineBreak (Line.firstBreak (Line.ofText source))).text := rfl
  rw [(pass_of_firstBreak rfl).1, Scan.edits_eq_editsFrom]
  exact Scan.ended_editsFrom hbreak Scan.ended_neutral

theorem edits_indented (hw : ∀ c ∈ w, isIndent c = true)
    (hts : ∀ slot, '\n' ∉ s.templates.template slot) (mode : Mode) (source : Text) :
    (s.pass mode (Text.indented w source)).edits =
      (s.pass mode source).edits.map (Edit.mapText (Text.indented w)) := by
  have hlines : ((Line.ofText source).map (Line.indented w)).map Line.text =
      ((Line.ofText source).map Line.text).map (w ++ ·) := by
    rw [List.map_map, List.map_map]
    rfl
  have hfeed : ∀ line ∈ (Line.ofText source).map Line.text, '\n' ∉ line := by
    intro line hline
    obtain ⟨l, hl, rfl⟩ := List.mem_map.mp hline
    exact (Line.plain_of_mem_ofText hl).noFeed
  have hbreak : (s.options mode (Line.firstBreak (Line.ofText source))).lineBreak =
      (s.lineBreak (Line.firstBreak (Line.ofText source))).text := rfl
  have hown : Line.firstBreak (Line.ofText (Text.indented w source)) =
      Line.firstBreak (Line.ofText source) := by
    rw [Line.ofText_indented hw, Line.firstBreak_indented]
  rw [(pass_of_firstBreak hown).1, (pass_of_firstBreak rfl).1, Line.ofText_indented hw, hlines]
  exact Scan.edits_indented hw (fun slot => spares_addIndent (hts slot)) hbreak hfeed

/-- Re-indenting commutes with documenting. A pass over a text with an indent in front of every line
gives what it gives for the text, with the indent in front of every line, by the same edits at the
same lines. -/
theorem pass_indented (hw : ∀ c ∈ w, isIndent c = true)
    (hts : ∀ slot, '\n' ∉ s.templates.template slot) (mode : Mode) (source : Text) :
    ∃ t, (s.pass mode source).text = .ok t ∧
      (s.pass mode (Text.indented w source)).text = .ok (Text.indented w t) ∧
      (s.pass mode (Text.indented w source)).edits =
        (s.pass mode source).edits.map (Edit.mapText (Text.indented w)) ∧
      (s.pass mode (Text.indented w source)).edits.map Edit.line =
        (s.pass mode source).edits.map Edit.line := by
  have hedits := edits_indented hw hts mode source
  obtain ⟨t, ht⟩ : ∃ t, (s.pass mode source).text = .ok t := ⟨_, pass_text⟩
  refine ⟨t, ht, ?_, hedits, ?_⟩
  · rw [(pass_of_firstBreak rfl).2] at ht ⊢
    rw [hedits, Line.ofText_indented hw,
      Line.apply_indented (Line.proper_ofText source) (ended_edits s mode source), ht]
    rfl
  · rw [hedits, List.map_map]
    exact List.map_congr_left fun e _ => e.line_mapText _

/-- A method with an old comment and an attribute, whose parameters are on two lines. The lines have
both line breaks, and the last one has none. -/
def wrappedLoad : Text :=
  "/// Old.\r\n[Obsolete]\n  public int Load(int first,\r\n\n".toList ++
    "  string second = \"=\")\n\t\x7d".toList

theorem pass_indented_wrappedLoad : ∃ t, (default.pass .regenerate wrappedLoad).text = .ok t ∧
    (default.pass .regenerate (Text.indented [' ', '\t'] wrappedLoad)).text =
      .ok (Text.indented [' ', '\t'] t) ∧
    (default.pass .regenerate (Text.indented [' ', '\t'] wrappedLoad)).edits =
      (default.pass .regenerate wrappedLoad).edits.map
        (Edit.mapText (Text.indented [' ', '\t'])) ∧
    (default.pass .regenerate (Text.indented [' ', '\t'] wrappedLoad)).edits.map Edit.line =
      (default.pass .regenerate wrappedLoad).edits.map Edit.line :=
  pass_indented (by simp [isIndent]) (fun slot => (Templates.stock_commenting slot).1) .regenerate
    wrappedLoad

end Settings
end TripleSlash
