import TripleSlash.Proofs.Comment.Marker
import TripleSlash.Proofs.Scan.Placement

/-! The marker for later parameters in the comments of a pass. It is put into the comment of a
declaration whose list is open, and it is gone when the list is closed and the comment goes in. -/
namespace TripleSlash.Scan

open Comment Template Text

variable {o : Options} {s : State} {lines : List Text} {i j : Nat} {line text : Text}
  {d : Declaration} {p : Parameter} {a : OpenList}

/-- A parameter that stands on the line of a declaration, or on a later line of its list. -/
inductive Reads (lines : List Text) (p : Parameter) : Prop where
  | declared {i : Nat} {d : Declaration} (hd : Declares lines i d)
      (hp : p ∈ Parameter.parseList d.rawParameters)
  | listed {i j : Nat} {d : Declaration} {line : Text} (hopen : OpenAt lines j i d)
      (hline : lines[j]? = some line) (hc : isComment line = false)
      (hp : p ∈ Parameter.parseList (Parens.inside (depthBehind d (between lines i j)) line))

theorem rawParameters_isInfix (h : d.Within line) : d.rawParameters <:+: line := by
  have hkind := h.kind
  obtain ⟨indent, access, name, kind⟩ := d
  cases kind with
  | type | property => exact List.nil_infix
  | constructor ps => exact hkind
  | method isStatic isAsync returns ps => exact hkind.2

/-- Parameters are written in the lines. -/
theorem isInfix_of_reads (h : Reads lines p) :
    ∃ line ∈ lines, p.type <:+: line ∧ p.name <:+: line := by
  cases h with
  | declared hd hp =>
    obtain ⟨line, hline, -, -, hrec⟩ := hd.line
    have hraw := rawParameters_isInfix (Declaration.recognize?_within hrec)
    obtain ⟨htype, hname⟩ := Parameter.infix_of_mem_parseList hp
    exact ⟨line, List.mem_of_getElem? hline, htype.trans hraw, hname.trans hraw⟩
  | @listed i j d line hopen hline hc hp =>
    have hinside := (Parens.inside_prefix (depthBehind d (between lines i j)) line).isInfix
    obtain ⟨htype, hname⟩ := Parameter.infix_of_mem_parseList hp
    exact ⟨line, List.mem_of_getElem? hline, htype.trans hinside, hname.trans hinside⟩

/-- What keeps the marker out of the comments for some lines: templates that do not make it,
parameters that do not either, and one place for the parameters of a list that is open. -/
structure Unmarked (o : Options) (lines : List Text) : Prop where
  templates : o.templates.Guarded
  lineBreak : Parting o.lineBreak
  reads : ∀ p, Reads lines p → p.Clear
  once : ∀ i d, Declares lines i d → d.isOpen = true →
    ∀ t, template? o.templates d.kind = some t → Once "parameters" t

/-- A comment that waits holds the marker at one place at most. -/
def State.Marked (s : State) : Prop := ∀ p, s.openList = some (.commented p) → p.Marked

theorem marked_accept {q : Pending} (h : Unmarked o lines) (hk : InList o lines j s (.commented q))
    (hline : lines[j]? = some line) (hc : isComment line = false) (hq : q.Marked) :
    (q.accept o.templates line).Marked := by
  obtain ⟨i, d, hopen, hdepth, -, -⟩ := hk.opener
  refine Pending.marked_accept h.templates hq fun p hp => h.reads p (.listed hopen hline hc ?_)
  rwa [← hdepth]

/-- A line hands on the marker at one place at most, and what it finishes does not hold it. -/
theorem marked_step (h : Unmarked o lines) (hline : lines[j]? = some line) (hk : Knows o lines j s)
    (hs : s.Marked) : (step o s j line).state.Marked ∧
      ∀ n text, .insert n text ∈ (step o s j line).edits → Clear marker text := by
  generalize hr : step o s j line = r
  cases hr ▸ step_case o s j line with
  | comment hc =>
    refine ⟨by simp [State.Marked, onComment, State.neutral], fun n text ht => ?_⟩
    simp only [onComment] at ht
    split at ht <;> simp at ht
  | @finished q text hc hl hf =>
    refine ⟨by simp [State.Marked], fun n t ht => ?_⟩
    obtain ⟨-, rfl⟩ := Edit.insert.inj (List.mem_singleton.mp ht)
    rw [finish?_of_closes (closes_of_finish? hf)] at hf
    obtain rfl := Option.some.inj hf
    exact Pending.clear_assembled (marked_accept h (hk.list _ hl) hline hc (hs q hl))
  | @pending q hc hl hf =>
    refine ⟨?_, by simp⟩
    rintro q' hq'
    obtain rfl : q.accept o.templates line = q' := by simpa using hq'
    exact marked_accept h (hk.list _ hl) hline hc (hs q hl)
  | @opening d text hc hl ha hd ht ho =>
    have hdeclares : Declares lines j d := ⟨(hk.rest hl).free, line, hline, hc, ha, hd⟩
    refine ⟨?_, by simp⟩
    rintro q hq
    obtain rfl := OpenList.commented.inj (Option.some.inj hq)
    exact {
      head := holds_render? h.templates h.lineBreak hd
        (fun p hp => h.reads p (.declared hdeclares hp)) ho (h.once j d hdeclares ho)
        (render?_of_comment? ht)
      entries := clear_of_unbraced (by simp [Pending.start])
      newline := parting_newline h.lineBreak (Declaration.unbraced_of_recognize? hd) }
  | @whole d text hc hl ha hd ht ho =>
    have hdeclares : Declares lines j d := ⟨(hk.rest hl).free, line, hline, hc, ha, hd⟩
    refine ⟨by simp [State.Marked, State.neutral], fun n t hins => ?_⟩
    obtain ⟨-, rfl⟩ := Edit.insert.inj (List.mem_singleton.mp hins)
    exact clear_render? h.templates h.lineBreak hd
      (fun p hp => h.reads p (.declared hdeclares hp)) ho (render?_of_comment? ht)
  | _ => simp_all [State.Marked, State.neutral, onAttribute]

theorem clear_editsFrom {rest : List Text} {n : Nat} (h : Unmarked o lines)
    (hrest : lines.drop j = rest) (hk : Knows o lines j s) (hs : s.Marked)
    (ht : .insert n text ∈ editsFrom o s j rest) : Clear marker text := by
  induction rest generalizing s j with
  | nil => simp [editsFrom] at ht
  | cons line rest ih =>
    obtain ⟨hline, hdrop⟩ := getElem?_of_drop hrest
    obtain ⟨hnext, hinserted⟩ := marked_step h hline hk hs
    rcases List.mem_append.mp ht with ht | ht
    · exact hinserted n text ht
    · exact ih hdrop (knows_step hline hk) hnext ht

/-- Lines and templates that do not hold the marker give no comment that does. The templates leave
no beginning of the marker in front of a hole other than a line break, nor those of parts at their
end. A declaration whose list is open says at most once where its parameters go, and no type or name
of a parameter ends in a beginning of the marker. -/
theorem marker_not_inserted {ts : Templates}
    (hts : ∀ slot, ¬ marker <:+: ts.template slot)
    (hlines : ∀ line ∈ lines, ¬ marker <:+: line)
    (hguarded : ∀ slot : Templates.Slot, Guarded slot.keys (ts.template slot))
    (hended : ∀ slot ∈ Templates.Slot.parts, ¬ Dangles marker (ts.template slot))
    (honce : ∀ i d, Declares lines i d → d.isOpen = true →
      ∀ t, template? ts d.kind = some t → Once "parameters" t)
    (hreads : ∀ p, Reads lines p → ¬ Dangles marker p.type ∧ ¬ Dangles marker p.name)
    (documented : AccessSet) (mode : Mode) (br : LineBreak) :
    ∀ n text, .insert n text ∈ edits ⟨ts, documented, mode, br.text⟩ lines →
      ¬ marker <:+: text := by
  intro n text ht
  have hunmarked : Unmarked ⟨ts, documented, mode, br.text⟩ lines := {
    templates := ⟨hts, hguarded, hended⟩
    lineBreak := parting_lineBreak br
    reads := by
      intro p hp
      obtain ⟨line, hline, htype, hname⟩ := isInfix_of_reads hp
      obtain ⟨hdtype, hdname⟩ := hreads p hp
      exact ⟨clear_of_not_dangles (fun h => hlines line hline (h.trans htype)) hdtype,
        clear_of_not_dangles (fun h => hlines line hline (h.trans hname)) hdname⟩
    once := honce }
  have hneutral : State.neutral.Marked := by simp [State.Marked, State.neutral]
  rw [edits_eq_editsFrom] at ht
  exact not_isInfix_of_clear marker_ne_nil
    (clear_editsFrom hunmarked rfl (knows_neutral _ lines) hneutral ht)

/-- A constructor with parameters on three lines. -/
def threeLines : List Text :=
  ["public Store(".toList, "    int size,".toList, "    string name)".toList]

theorem marker_not_inserted_threeLines :
    (edits ⟨.stock, .visible, .fillMissing, LineBreak.crlf.text⟩ threeLines).length = 1 ∧
      ∀ n text, .insert n text ∈
          edits ⟨.stock, .visible, .fillMissing, LineBreak.crlf.text⟩ threeLines →
        ¬ marker <:+: text := by
  refine ⟨by decide +kernel, marker_not_inserted Templates.stock_known.guarded.free
    (by decide +kernel) Templates.stock_known.guarded.guarded Templates.stock_known.guarded.ended
    ?_ ?_ .visible .fillMissing .crlf⟩
  · intro i d hd ho t ht
    rcases Declaration.kind_of_open ho with hk | ⟨isStatic, isAsync, r, hk⟩
    · rw [hk] at ht
      exact Option.some.inj ht ▸ Templates.stock_single.constructor
    · rw [hk] at ht
      exact Option.some.inj ht ▸ Templates.stock_single.method
  · have hbraces : ∀ line ∈ threeLines, '{' ∉ line := by decide +kernel
    intro p hp
    obtain ⟨line, hline, htype, hname⟩ := isInfix_of_reads hp
    exact ⟨not_dangles_of_not_mem fun h => hbraces line hline (htype.subset h),
      not_dangles_of_not_mem fun h => hbraces line hline (hname.subset h)⟩

/-- Templates in which a type's name stands behind a brace that begins no hole. -/
def braced : Templates :=
  { Templates.stock with
    type := "/// \x7b".toList ++ hole "name" ++ " parameters\x7d".toList }

/-- A name in front of the rest of the marker makes the marker. -/
theorem marker_made_of_name : (∀ slot, ¬ marker <:+: braced.template slot) ∧
    (∀ line ∈ ["public class additional".toList], ¬ marker <:+: line) ∧
    ∃ n text, .insert n text ∈ edits ⟨braced, .visible, .fillMissing, LineBreak.lf.text⟩
        ["public class additional".toList] ∧ marker <:+: text := by
  refine ⟨by rintro ⟨⟩ <;> decide +kernel, by decide +kernel, 0,
    "/// \x7badditional parameters\x7d\n".toList, by decide +kernel, by decide +kernel⟩

end TripleSlash.Scan
