import TripleSlash.Proofs.Comment.Substituted
import TripleSlash.Proofs.Declaration.Indented
import TripleSlash.Proofs.Parameter.Broken
import TripleSlash.Proofs.Parens
import TripleSlash.Proofs.Text.Indented

/-! Comments of indented declarations. A comment has the indent of its declaration in front of each
of its lines, and the indent of later parameters does not show in it. -/
namespace TripleSlash

open Template Comment Text

variable {w t line nl : Text} {ts : Templates} {br : LineBreak}
  {d : Declaration} {p : Pending}

/-- An indent is outside of all lists. -/
theorem Parens.scan_indented (hw : ∀ c ∈ w, isIndent c = true) (n : Nat) (line : Text) :
    closes n (w ++ line) = closes n line ∧ depthAfter n (w ++ line) = depthAfter n line ∧
      inside n (w ++ line) = w ++ inside n line := by
  have ho : '(' ∉ w := fun hm => absurd (hw _ hm) (by decide)
  have hc : ')' ∉ w := fun hm => absurd (hw _ hm) (by decide)
  have hopen : closes n w = false := by simpa [closes, scan] using (closes_append (t := []) ho hc).1
  obtain ⟨-, -, hinside⟩ := append_of_not_closes (y := line) hopen
  have hdepth : depthAfter n w = n := by
    simpa [depthAfter, scan] using (closes_append (t := []) ho hc).2
  rw [hdepth] at hinside
  exact ⟨(closes_append ho hc).1, (closes_append ho hc).2, hinside⟩

namespace Comment

theorem getLast?_break (b : LineBreak) : b.text.getLast? = some '\n' := by cases b <;> rfl

/-- A comment ends in a line break. -/
theorem getLast?_render? (h : render? ts br.text d = some t) : t.getLast? = some '\n' := by
  obtain ⟨body, -, rfl⟩ := Option.map_eq_some_iff.mp h
  simp [getLast?_break]

/-- Behind a line break an indent is part of the indent that follows. -/
theorem newline_indented (w indent : Text) : newline br.text (w ++ indent) =
    newline (Text.subst (addIndent w) br.text) indent := by
  simp [newline, subst_break]

theorem newline_within (hl : '\n' ∉ line) (hd : d.Within line) :
    newline br.text (d.indented w).indent =
      Text.subst (addIndent w) (newline br.text d.indent) :=
  (newline_indented w d.indent).trans (newline_subst (spares_addIndent hl) hd br.text)

theorem body?_indented : body? ts nl (d.indented w) = body? ts nl d := rfl

/-- The comment of an indented declaration. -/
theorem render?_indented (hw : ∀ c ∈ w, isIndent c = true) (hts : SparedBy (addIndent w) ts)
    (hl : '\n' ∉ line) (hd : d.Within line) :
    render? ts br.text (d.indented w) = (render? ts br.text d).map (Text.indented w) := by
  have hsubst : render? ts (Text.subst (addIndent w) br.text) d = _ :=
    render?_subst (rebreaks_addIndent hw) hts (spares_addIndent hl) hd
  have hnewline : newline br.text (d.indented w).indent = _ := newline_indented w d.indent
  rw [render?, hnewline, body?_indented]
  rw [render?] at hsubst
  cases hbody : body? ts (newline (Text.subst (addIndent w) br.text) d.indent) d with
  | none =>
    rw [hbody, Option.map_none, eq_comm, Option.map_eq_none_iff] at hsubst
    rw [hsubst]
    rfl
  | some body =>
    rw [hbody, Option.map_some, eq_comm, Option.map_eq_some_iff] at hsubst
    obtain ⟨t, ht, hsubst⟩ := hsubst
    have hlast : t.getLast? = some '\n' := getLast?_render? ht
    rw [ht, Option.map_some, Option.map_some]
    have hbehind : (d.indented w).indent ++ body ++ br.text ++ w = Text.indented w t ++ w := by
      rw [indented_append_self hlast, hsubst, subst_break]
      simp [Declaration.indented]
    exact congrArg some (List.append_cancel_right hbehind)

/-- The entries of indented parameters are those of the parameters. -/
theorem parameterEntries_indented (hw : ∀ c ∈ w, isIndent c = true)
    (hts : SparedBy (addIndent w) ts) (ht : '\n' ∉ t) :
    parameterEntries ts (Text.subst (addIndent w) nl) (w ++ t) =
      Text.subst (addIndent w) (parameterEntries ts nl t) := by
  have hblank : ∀ c ∈ w, isBlank c = true := fun c hc => isBlank_of_isIndent (hw c hc)
  rw [← parameterEntries_subst hts (spares_addIndent ht), parameterEntries, parameterEntries,
    Parameter.parseList_of_blank_append hblank]

namespace Pending

/-- A comment that waits, with an indent in front of each of its lines. -/
def indented (w : Text) (p : Pending) : Pending :=
  { p.subst (addIndent w) with head := Text.indented w p.head }

theorem accept_indented (hw : ∀ c ∈ w, isIndent c = true) (hts : SparedBy (addIndent w) ts)
    (hl : '\n' ∉ line) :
    (p.indented w).accept ts (w ++ line) = (p.accept ts line).indented w := by
  obtain ⟨-, hdepth, hinside⟩ := Parens.scan_indented hw p.depth line
  have hfeed : '\n' ∉ Parens.inside p.depth line :=
    fun hm => hl ((Parens.inside_prefix p.depth line).subset hm)
  simp [accept, indented, subst, hdepth, hinside, parameterEntries_indented hw hts hfeed]

/-- The entries of later parameters do not touch the last line break. -/
theorem assembled_eq {x : Text} (hx : p.head = x ++ ['\n']) :
    p.assembled = replaceFirst marker p.entries x ++ ['\n'] := by
  rw [assembled, hx, replaceFirst_concat _ (by decide) (by decide)]

theorem getLast?_assembled (hp : p.head.getLast? = some '\n') :
    p.assembled.getLast? = some '\n' := by
  obtain ⟨x, hx⟩ := List.getLast?_eq_some_iff.mp hp
  simp [assembled_eq hx]

theorem assembled_indented (hw : ∀ c ∈ w, isIndent c = true)
    (hp : p.head.getLast? = some '\n') :
    (p.indented w).assembled = Text.indented w p.assembled := by
  obtain ⟨x, hx⟩ := List.getLast?_eq_some_iff.mp hp
  have hbrace : '{' ∉ w := fun hm => absurd (hw _ hm) (by decide)
  have hhead : (p.indented w).head = (w ++ Text.subst (addIndent w) x) ++ ['\n'] := by
    rw [indented, hx, indented_feed, List.append_assoc]
  have hsubst : replaceFirst marker (p.indented w).entries (Text.subst (addIndent w) x) = _ :=
    (rebreaks_addIndent hw).replaceFirst_subst (by decide) (by decide) p.entries x
  calc (p.indented w).assembled
    _ = w ++ replaceFirst marker (p.indented w).entries (Text.subst (addIndent w) x) ++ ['\n'] := by
        rw [assembled_eq hhead]
        exact congrArg (· ++ ['\n']) (replaceFirst_append hbrace)
    _ = Text.indented w p.assembled := by
        rw [hsubst, assembled_eq hx, indented_feed, List.append_assoc]
        rfl

theorem finish?_indented (hw : ∀ c ∈ w, isIndent c = true) (hts : SparedBy (addIndent w) ts)
    (hl : '\n' ∉ line) (hp : p.head.getLast? = some '\n') :
    (p.indented w).finish? ts (w ++ line) = (p.finish? ts line).map (Text.indented w) := by
  have hcloses : Parens.closes (p.indented w).depth (w ++ line) = Parens.closes p.depth line :=
    (Parens.scan_indented hw p.depth line).1
  have hassembled := assembled_indented (p := p.accept ts line) hw hp
  rw [finish?, finish?, hcloses, accept_indented hw hts hl, hassembled]
  split <;> rfl

end Pending
end Comment
end TripleSlash
