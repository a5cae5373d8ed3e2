import TripleSlash.Proofs.Declaration.Extended
import TripleSlash.Proofs.Scan.Gating

/-! What stands between a comment and its declaration. A comment goes above a run of lines that
begin with a bracket. Such a line counts as attributes as a whole, so a declaration that stands
behind the attributes of a line gets no comment, and the comment of the next one goes above it. -/
namespace TripleSlash

namespace Scan

variable {o : Options} {s : State} {lines : List Text} {i j : Nat} {line text : Text}
  {c : Nat × Edit} {e : Edit}

/-- A comment that a line finishes goes above the attributes of its declaration. -/
theorem credit_run (h : Knows o lines j s) (hc : c ∈ credit o s j line) :
    RunStart lines c.1 c.2.line := by
  rw [credit_eq] at hc
  obtain ⟨text, ht, rfl⟩ := List.mem_map.mp hc
  replace ht := Option.mem_toList.mp ht
  cases hl : s.openList with
  | none => simpa [State.declaring, State.anchor?, hl, Edit.line] using (h.rest hl).run
  | some a =>
    cases a with
    | commented p =>
      obtain ⟨i, d, -, -, -, hplace⟩ := (h.list _ hl).opener
      obtain ⟨rfl, hrun⟩ := hplace p rfl
      simpa [State.declaring, State.anchor?, hl, Edit.line] using hrun
    | bare depth =>
      generalize hr : step o s j line = r at ht
      cases hr ▸ step_case o s j line with
      | comment hcomment => simp [← hr, inserted?_of_comment hcomment] at ht
      | _ => simp_all [Step.inserted?, onAttribute]

theorem credits_run {rest : List Text} (hrest : lines.drop j = rest) (h : Knows o lines j s)
    (hc : c ∈ credits o s j rest) : RunStart lines c.1 c.2.line := by
  induction rest generalizing s j with
  | nil => simp [credits] at hc
  | cons line rest ih =>
    obtain ⟨hline, hdrop⟩ := getElem?_of_drop hrest
    rcases List.mem_append.mp hc with hc | hc
    · exact credit_run h hc
    · exact ih hdrop (knows_step hline h) hc

/-- A line of attributes has no declaration of its own. -/
theorem Attribute.classify (h : Attribute lines j) : ∃ line, lines[j]? = some line ∧
    TripleSlash.classify line = .attribute ∧ Declaration.recognize? line = none := by
  obtain ⟨line, hline, ha⟩ := h.line
  have hc : isComment line = false := by
    cases hc : isComment line with
    | false => rfl
    | true => simp [isAttribute_of_isComment hc] at ha
  refine ⟨line, hline, by simp [TripleSlash.classify, hc, ha], ?_⟩
  cases hd : Declaration.recognize? line with
  | none => rfl
  | some d => simp [(Declaration.not_comment_of_recognize? hd).2] at ha

/-- Between a comment and its declaration there are lines of attributes only, outside of all
parameter lists, and none of them is a declaration for the pass. -/
theorem comments_above_attributes (o : Options) (lines : List Text) :
    (comments o lines).map Prod.snd = (edits o lines).filter Edit.isInsert ∧
      ∀ i e, (i, e) ∈ comments o lines → (∃ d, Declares lines i d) ∧ e.line ≤ i ∧
        ∀ j, e.line ≤ j → j < i → ¬ Consumed lines j ∧ ∃ line, lines[j]? = some line ∧
          classify line = .attribute ∧ Declaration.recognize? line = none := by
  refine ⟨?_, fun i e he => ?_⟩
  · rw [edits_eq_editsFrom]
    exact map_snd_credits .neutral 0 lines
  · have hrun : RunStart lines i e.line := credits_run rfl (knows_neutral o lines) he
    obtain ⟨-, d, hd, -⟩ := mem_comments.mp he
    refine ⟨⟨d, hd⟩, hrun.le, fun j hj hji => ?_⟩
    have ha := hrun.attributes j hj hji
    exact ⟨ha.free, ha.classify⟩

/-! Declarations behind attributes. -/

/-- What follows the sections in brackets that a text begins with, and the whitespace around them.
Goes on inside the given number of brackets; `rest` follows the sections that are closed. -/
def behindSections (rest : Text) : Nat → Text → Text
  | _, [] => rest
  | 0, c :: t =>
    if isBlank c then behindSections rest 0 t
    else if c = '[' then behindSections rest 1 t
    else rest
  | depth + 1, c :: t =>
    if c = '[' then behindSections rest (depth + 2) t
    else if c = ']' then
      if depth = 0 then behindSections (t.dropWhile isBlank) 0 t
      else behindSections rest depth t
    else behindSections rest (depth + 1) t

/-- A line without the sections in brackets behind its indent. -/
def withoutSections (line : Text) : Text :=
  let t := line.dropWhile isIndent
  line.takeWhile isIndent ++ behindSections t 0 t

/-- Two properties, the first of them behind an attribute. -/
def besideAttribute : List Text :=
  ["[Obsolete] public int A { get; }".toList, "public int B { get; }".toList]

/-- The comment of the second property goes above the first one. -/
theorem comment_above_hidden : ∃ e line,
    (1, e) ∈ comments ⟨.stock, .visible, .fillMissing, ['\n']⟩ besideAttribute ∧ e.line ≤ 0 ∧
      besideAttribute[0]? = some line ∧
      (Declaration.recognize? (withoutSections line)).isSome = true := by
  refine ⟨.insert 0 "/// <summary>\n/// Gets the B.\n/// </summary>\n".toList,
    "[Obsolete] public int A { get; }".toList, ?_, Nat.le_refl 0, rfl, ?_⟩
  · decide +kernel
  · decide +kernel

end Scan
end TripleSlash
