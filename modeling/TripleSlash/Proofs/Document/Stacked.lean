import TripleSlash.Proofs.Comment.Stacked
import TripleSlash.Proofs.Document.Blocks
import TripleSlash.Proofs.Scan.Completed

/-! What a pass puts into a document are whole lines, each a comment behind the indent of the
declaration that it belongs to. -/
namespace TripleSlash

open Comment Text

variable {br : LineBreak} {d : Declaration} {l text : Text}

/-- A line of the comment of a declaration. It has the indent of the declaration and is taken for a
comment, and none of the shapes of declarations reads it. -/
structure Declaration.CommentLine (d : Declaration) (l : Text) : Prop where
  noFeed : '\n' ∉ l
  indent : d.indent <+: l
  comment : isComment l = true
  typeLine : Shape.typeLine.read? l = none
  constructorLine : Shape.constructorLine.read? l = none
  methodLine : Shape.methodLine.read? l = none
  propertyLine : Shape.propertyLine.read? l = none

theorem Declaration.commentLine_indent (hi : ∀ c ∈ d.indent, isIndent c = true) (hl : '\n' ∉ l)
    (hc : isComment l = true) : d.CommentLine (d.indent ++ l) := by
  have hcomment := isComment_indent_append hi hc
  obtain ⟨htype, hconstructor, hmethod, hproperty⟩ := Shape.read?_of_comment hcomment
  refine ⟨?_, List.prefix_append _ l, hcomment, htype, hconstructor, hmethod, hproperty⟩
  rw [List.mem_append, not_or]
  exact ⟨noFeed_indent hi, hl⟩

namespace Scan

variable {o : Options} {lines : List Text} {i j n : Nat}

theorem between_subset (lines : List Text) (i j : Nat) : between lines i j ⊆ lines :=
  fun _ hx => List.take_subset _ _ (List.drop_subset _ _ hx)

/-- The lines of a complete comment. -/
theorem Completes.stack (h : Completes o lines i j n d text) (hts : o.templates.Commenting)
    (hb : o.lineBreak = br.text) (hlines : ∀ line ∈ lines, '\n' ∉ line) :
    ∃ ls, ls ≠ [] ∧ text = Text.stack br ls ∧ ∀ l ∈ ls, d.CommentLine l := by
  obtain ⟨line, hline, -, -, hd⟩ := h.ends.declares.line
  have hi := indent_within (Declaration.recognize?_within hd)
  obtain ⟨line', d', hsplit, hd', hindent⟩ := Declaration.exists_unindented hd
  have hl : '\n' ∉ line' := by
    have hfeed := hlines line (List.mem_of_getElem? hline)
    rw [hsplit, List.mem_append, not_or] at hfeed
    exact hfeed.2
  have hbelow : ∀ x ∈ between lines i (j + 1), '\n' ∉ x :=
    fun x hx => hlines x (between_subset lines i (j + 1) hx)
  have hwithin := Declaration.recognize?_within hd'
  have htext : complete? o.templates br.text (d'.indented d.indent) _ = _ :=
    complete?_indented hi (fun slot => spares_addIndent (hts slot).1) hl hwithin hbelow
  rw [hindent, ← hb, h.text, hb, eq_comm, Option.map_eq_some_iff] at htext
  obtain ⟨t, ht, rfl⟩ := htext
  obtain ⟨ls, hne, hls, rfl⟩ := stack_complete? hts hl hwithin hbelow ht
  refine ⟨ls.map (d.indent ++ ·), by simpa using hne, stack_indented fun l hl => (hls l hl).1, ?_⟩
  rw [List.forall_mem_map]
  exact fun l hl => Declaration.commentLine_indent hi (hls l hl).1 (hls l hl).2

end Scan

namespace Settings

open Scan

end Settings
end TripleSlash
