import TripleSlash.Proofs.Comment.Indented
import TripleSlash.Proofs.Comment.Listed
import TripleSlash.Proofs.Comment.Rendered
import TripleSlash.Proofs.Declaration.Extended

/-! Complete comments line by line. A comment whose line break is a line feed and whose declaration
has no indent is a block of comment lines. With another line break and behind an indent it has the
same lines, each behind the indent and in front of the line break. -/
namespace TripleSlash

open Template Comment Text

variable {σ : Char → Text} {ts : Templates} {br : LineBreak} {lb line nl t w : Text}
  {d : Declaration} {ps : List Parameter} {p : Parameter} {below ls : List Text}

namespace Text

/-- Some lines, each with a line break behind it. -/
def stack (br : LineBreak) (ls : List Text) : Text := ls.flatMap (· ++ br.text)

@[simp] theorem stack_nil (br : LineBreak) : stack br [] = [] := rfl

@[simp] theorem stack_cons (br : LineBreak) (l : Text) (ls : List Text) :
    stack br (l :: ls) = l ++ br.text ++ stack br ls := rfl

/-- Puts a line break in the place of a line feed. -/
def breakWith (br : LineBreak) : Char → Text := inPlaceOf '\n' br.text

theorem rebreaks_breakWith (br : LineBreak) : Rebreaks (breakWith br) := by
  cases br with
  | lf => exact rebreaks_inPlaceOf (.inl rfl) (.inl rfl) (by simp)
  | crlf => exact rebreaks_inPlaceOf (.inl rfl) (.inr rfl) (by decide)

theorem subst_breakWith (br : LineBreak) : subst (breakWith br) LineBreak.lf.text = br.text := by
  simp [LineBreak.text, subst_cons, breakWith, inPlaceOf]

/-- The same lines with another line break. -/
theorem stack_subst (h : ∀ l ∈ ls, '\n' ∉ l) :
    subst (breakWith br) (stack .lf ls) = stack br ls := by
  induction ls with
  | nil => rfl
  | cons l ls ih =>
    have hl : subst (breakWith br) l = l := subst_of_spares (spares_inPlaceOf (h l (by simp)))
    rw [stack_cons, subst_append, subst_append, hl, subst_breakWith,
      ih fun x hx => h x (by simp [hx]), stack_cons]

theorem indented_line (hl : '\n' ∉ t) : indented w (t ++ br.text) = w ++ t ++ br.text := by
  have hbehind := indented_append_self (w := w) (t := t ++ br.text) (by simp [getLast?_break])
  rw [subst_append, subst_break, subst_of_spares (spares_addIndent hl), ← List.append_assoc,
    ← List.append_assoc] at hbehind
  exact List.append_cancel_right hbehind

/-- The same lines behind an indent. -/
theorem stack_indented (h : ∀ l ∈ ls, '\n' ∉ l) :
    indented w (stack br ls) = stack br (ls.map (w ++ ·)) := by
  induction ls with
  | nil => rfl
  | cons l ls ih =>
    rw [stack_cons, indented_append (by simp [getLast?_break]), indented_line (h l (by simp)),
      ih fun x hx => h x (by simp [hx]), List.map_cons, stack_cons]

end Text

/-- What a list takes from its lines is written in them. -/
theorem Parameter.infix_of_mem_listedFrom {n : Nat} (h : p ∈ listedFrom n ls) :
    ∃ x ∈ ls, p.type <:+: x ∧ p.name <:+: x := by
  induction ls generalizing n with
  | nil => simp [listedFrom] at h
  | cons line ls ih =>
    rcases List.mem_append.mp h with h | h
    · obtain ⟨htype, hname⟩ := infix_of_mem_parseList h
      have hinside : Parens.inside n line <:+: line := (Parens.inside_prefix n line).isInfix
      exact ⟨line, by simp, htype.trans hinside, hname.trans hinside⟩
    · obtain ⟨x, hx, hp⟩ := ih h
      exact ⟨x, by simp [hx], hp⟩

namespace Comment

theorem entries_subst (hts : SparedBy σ ts) (hps : ∀ p ∈ ps, Spares σ p.type ∧ Spares σ p.name) :
    entries ts (Text.subst σ nl) ps = Text.subst σ (entries ts nl ps) := by
  have hentry : ∀ p ∈ ps,
      parameterEntry ts (Text.subst σ nl) p = Text.subst σ (parameterEntry ts nl p) :=
    fun p hp => parameterEntry_subst hts (hps p hp).1 (hps p hp).2
  exact (List.flatMap_congr hentry).trans List.flatMap_assoc.symm

theorem listedBelow_spares (h : ∀ x ∈ below, Spares σ x) :
    ∀ p ∈ d.listedBelow below, Spares σ p.type ∧ Spares σ p.name := by
  intro p hp
  obtain ⟨x, hx, htype, hname⟩ := Parameter.infix_of_mem_listedFrom hp
  exact ⟨spares_of_isInfix htype (h x hx), spares_of_isInfix hname (h x hx)⟩

/-- What turns the text for a declaration into that for another one, and goes past the entries that
are put in later, turns the one complete comment into the other. -/
theorem complete?_map {lb' : Text} {d' : Declaration} {f : Text → Text}
    (hrender : render? ts lb' d' = (render? ts lb d).map f) (ho : d'.isOpen = d.isOpen)
    (hentries : ∀ head, render? ts lb d = some head → Text.replaceFirst marker
        (entries ts (newline lb' d'.indent) (d'.listedBelow below)) (f head) =
      f (Text.replaceFirst marker (entries ts (newline lb d.indent) (d.listedBelow below)) head)) :
    complete? ts lb' d' below = (complete? ts lb d below).map f := by
  rw [complete?, complete?, hrender, ho, Option.map_map, Option.map_map]
  refine Option.map_congr fun head hhead => ?_
  simp only [Function.comp_apply]
  split
  · exact hentries head hhead
  · rfl

/-- A complete comment is the same for another line break, but for its line breaks. -/
theorem complete?_subst (hσ : Rebreaks σ) (hts : SparedBy σ ts) (hl : Spares σ line)
    (hd : d.Within line) (hbelow : ∀ x ∈ below, Spares σ x) :
    complete? ts (Text.subst σ lb) d below = (complete? ts lb d below).map (Text.subst σ) := by
  refine complete?_map (render?_subst hσ hts hl hd) rfl fun head _ => ?_
  rw [newline_subst hl hd, entries_subst hts (listedBelow_spares hbelow)]
  exact hσ.replaceFirst_subst (by decide) (by decide) _ head

/-- The complete comment of an indented declaration. -/
theorem complete?_indented (hw : ∀ c ∈ w, isIndent c = true) (hts : SparedBy (addIndent w) ts)
    (hl : '\n' ∉ line) (hd : d.Within line) (hbelow : ∀ x ∈ below, '\n' ∉ x) :
    complete? ts br.text (d.indented w) below =
      (complete? ts br.text d below).map (Text.indented w) := by
  have hlisted : (d.indented w).listedBelow below = d.listedBelow below := rfl
  refine complete?_map (render?_indented hw hts hl hd) rfl fun head hhead => ?_
  rw [newline_within hl hd, hlisted,
    entries_subst hts (listedBelow_spares fun x hx => spares_addIndent (hbelow x hx))]
  exact Pending.assembled_indented hw (getLast?_render? hhead)
    (p := ⟨0, 0, head, entries ts (newline br.text d.indent) (d.listedBelow below), [], 0⟩)

theorem flowing_entries (hts : ts.Lined) (hw : ∀ c ∈ w, isIndent c = true)
    (hps : ∀ p ∈ ps, '\n' ∉ p.type ∧ '\n' ∉ p.name) :
    Flowing (entries ts (newline br.text w) ps) := by
  apply flowing_flatMap
  intro p hp
  apply flowing_entry hw _ (hts .parameter)
  exact flowingValues_cons (by decide) (flowing_of_noFeed (hps p hp).1) <|
    flowingValues_cons (by decide) (flowing_of_noFeed (hps p hp).2) flowingValues_nil

theorem block_complete? (hts : ts.Lined) (hl : '\n' ∉ line) (hd : d.Within line)
    (hbelow : ∀ x ∈ below, '\n' ∉ x) (ht : complete? ts br.text d below = some t) : Block t := by
  obtain ⟨head, hhead, rfl⟩ := Option.map_eq_some_iff.mp ht
  have hblock := block_render? hts hl hd hhead
  split
  · refine block_replaceFirst hblock (flowing_entries hts (indent_within hd) fun p hp => ?_)
    obtain ⟨x, hx, htype, hname⟩ := Parameter.infix_of_mem_listedFrom hp
    exact ⟨noFeed_of_isInfix (hbelow x hx) htype, noFeed_of_isInfix (hbelow x hx) hname⟩
  · exact hblock

/-- Whole lines are what stands in front of their line feeds. -/
theorem exists_stack {lines : List Line}
    (h : ∀ l ∈ lines, isComment l.text = true ∧ l.ending ≠ none ∧ '\n' ∉ l.text) :
    ∃ ls : List Text, ls.length = lines.length ∧
      (∀ l ∈ ls, '\n' ∉ l ∧ isComment l = true) ∧ Line.join lines = stack .lf ls := by
  induction lines with
  | nil => exact ⟨[], rfl, by simp, rfl⟩
  | cons l lines ih =>
    obtain ⟨ls, hlength, hls, hjoin⟩ := ih fun l' hl' => h l' (by simp [hl'])
    obtain ⟨hcomment, hending, hfeed⟩ := h l (by simp)
    obtain ⟨x, hx, hxfeed, hxcomment⟩ : ∃ x, l.full = x ++ LineBreak.lf.text ∧ '\n' ∉ x ∧
        isComment x = true := by
      obtain ⟨text, ending⟩ := l
      match ending with
      | none => exact absurd rfl hending
      | some .lf => exact ⟨text, rfl, hfeed, hcomment⟩
      | some .crlf =>
        refine ⟨text ++ ['\r'], by simp [Line.full, LineBreak.text], ?_, isComment_append hcomment⟩
        simpa using hfeed
    refine ⟨x :: ls, by simp [hlength], ?_, by rw [Line.join_cons, stack_cons, hx, hjoin]⟩
    exact List.forall_mem_cons.mpr ⟨⟨hxfeed, hxcomment⟩, hls⟩

/-- The lines of a block. -/
theorem stack_of_block (h : Block t) :
    ∃ ls, ls ≠ [] ∧ (∀ l ∈ ls, '\n' ∉ l ∧ isComment l = true) ∧ t = stack .lf ls := by
  have hlines : ∀ l ∈ Line.ofText t, isComment l.text = true ∧ l.ending ≠ none ∧ '\n' ∉ l.text :=
    fun l hl =>
      ⟨(block_lines h hl).1, (block_lines h hl).2, (Line.plain_of_mem_ofText hl).noFeed⟩
  obtain ⟨ls, hlength, hls, hjoin⟩ := exists_stack hlines
  refine ⟨ls, ?_, hls, (Line.join_ofText t).symm.trans hjoin⟩
  rintro rfl
  exact block_ne_nil h (List.length_eq_zero_iff.mp hlength.symm)

/-- With any line break a complete comment is made of comment lines. -/
theorem stack_complete? (hts : ts.Commenting) (hl : '\n' ∉ line) (hd : d.Within line)
    (hbelow : ∀ x ∈ below, '\n' ∉ x) (ht : complete? ts br.text d below = some t) :
    ∃ ls, ls ≠ [] ∧ (∀ l ∈ ls, '\n' ∉ l ∧ isComment l = true) ∧ t = stack br ls := by
  have hsubst : complete? ts (Text.subst (breakWith br) LineBreak.lf.text) d below = _ :=
    complete?_subst (rebreaks_breakWith br) (fun slot => spares_inPlaceOf (hts slot).1)
      (spares_inPlaceOf hl) hd fun x hx => spares_inPlaceOf (hbelow x hx)
  rw [subst_breakWith, ht, eq_comm, Option.map_eq_some_iff] at hsubst
  obtain ⟨t', ht', rfl⟩ := hsubst
  obtain ⟨ls, hne, hls, rfl⟩ := stack_of_block (block_complete? hts.lined hl hd hbelow ht')
  exact ⟨ls, hne, hls, stack_subst fun l hl => (hls l hl).1⟩

end Comment

/-- A recognized declaration behind its indent. -/
theorem Declaration.exists_unindented (h : recognize? line = some d) :
    ∃ line' d', line = d.indent ++ line' ∧ recognize? line' = some d' ∧
      d'.indented d.indent = d := by
  have hd := recognize?_within h
  refine ⟨line.dropWhile isIndent, ?_⟩
  have hline : line = d.indent ++ line.dropWhile isIndent := by
    rw [hd.indent, List.takeWhile_append_dropWhile]
  have hindented := recognize?_indented (indent_within hd) (line.dropWhile isIndent)
  rw [← hline, h, eq_comm, Option.map_eq_some_iff] at hindented
  obtain ⟨d', hd', he⟩ := hindented
  exact ⟨d', hline, hd', he⟩

namespace Shape

open Pattern

/-- A comment does not begin like a declaration. -/
theorem read?_member_of_comment (h : isComment line = true) (p : LinePattern) :
    (seq indent (seq access p)).read? line = none := by
  cases hm : (seq indent (seq access p)).read? line with
  | none => rfl
  | some m =>
    obtain ⟨c, rest, hline, hc⟩ := begins_of_mem (mem_readings_of_read? hm)
    obtain ⟨behind, hbehind⟩ := isComment_iff.mp h
    have hslash : '/' = c := by simpa [hline] using congrArg List.head? hbehind
    rcases hc with rfl | rfl <;> simp at hslash

/-- No shape of a declaration reads a comment. -/
theorem read?_of_comment (h : isComment line = true) :
    typeLine.read? line = none ∧ constructorLine.read? line = none ∧
      methodLine.read? line = none ∧ propertyLine.read? line = none :=
  ⟨read?_member_of_comment h _, read?_member_of_comment h _, read?_member_of_comment h _,
    read?_member_of_comment h _⟩

end Shape
end TripleSlash
