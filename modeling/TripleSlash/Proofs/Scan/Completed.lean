import TripleSlash.Proofs.Comment.Listed
import TripleSlash.Proofs.Scan.Gating

/-! What the comments of a pass say. Each of them is the complete comment of a declaration: that of
its own line, with the parameters of the lines below on which its list goes on. -/
namespace TripleSlash.Scan

open Comment

variable {o : Options} {s : State} {lines : List Text} {i j : Nat} {d : Declaration}
  {line text : Text} {c : Nat × Edit}

/-- The line at `j` is the last one of the declaration at `i`. -/
inductive EndsAt (lines : List Text) (i : Nat) (d : Declaration) : Nat → Prop
  /-- All its parameters are on one line. -/
  | whole (hd : Declares lines i d) (ho : d.isOpen = false) : EndsAt lines i d i
  /-- Its list is still open above the line, and closes on it. -/
  | wrapped {j : Nat} (h : OpenAt lines j i d) (hc : Closes d (between lines i (j + 1))) :
    EndsAt lines i d j

theorem EndsAt.declares (h : EndsAt lines i d j) : Declares lines i d := by
  cases h with
  | whole hd ho => exact hd
  | wrapped h hc => exact h.declares

/-- A text is the complete comment of the declaration at `i`, whose last line is at `j`, and goes
above the line at `n`, where the attributes of the declaration begin. -/
structure Completes (o : Options) (lines : List Text) (i j n : Nat) (d : Declaration)
    (text : Text) : Prop where
  ends : EndsAt lines i d j
  run : RunStart lines i n
  text : complete? o.templates o.lineBreak d (between lines i (j + 1)) = some text

/-- A comment that waits in front of the line at `j` has the parameters of the lines above. -/
def Gathers (o : Options) (lines : List Text) (j : Nat) (s : State) : Prop :=
  ∀ p, s.openList = some (.commented p) → ∀ d, OpenAt lines j p.declaredAt d →
    Pending.Behind o.templates o.lineBreak d (between lines p.declaredAt j) p

theorem gathers_of_rest (hl : s.openList = none) : Gathers o lines j s := by
  intro p hp
  simp [hl] at hp

theorem gathers_of_bare {depth : Nat} (hl : s.openList = some (.bare depth)) :
    Gathers o lines j s := by
  intro p hp
  simp [hl] at hp

/-- The comment of an open list, with its declaration. -/
theorem behind_of_openList (hk : Knows o lines j s) (hg : Gathers o lines j s) {p : Pending}
    (hl : s.openList = some (.commented p)) :
    ∃ d, OpenAt lines j p.declaredAt d ∧ RunStart lines p.declaredAt p.insertAt ∧
      p.depth = depthBehind d (between lines p.declaredAt j) ∧
      Pending.Behind o.templates o.lineBreak d (between lines p.declaredAt j) p := by
  obtain ⟨i, d, hopen, hdepth, -, hplace⟩ := (hk.list _ hl).opener
  obtain ⟨rfl, hrun⟩ := hplace p rfl
  exact ⟨d, hopen, hrun, hdepth, hg p hl d hopen⟩

theorem gathers_step (hline : lines[j]? = some line) (hk : Knows o lines j s)
    (hg : Gathers o lines j s) : Gathers o lines (j + 1) (step o s j line).state := by
  generalize hr : step o s j line = r
  cases hr ▸ step_case o s j line with
  | @pending p hc hl hf =>
    rintro q hq d hd
    obtain rfl : p.accept o.templates line = q := by simpa using hq
    obtain ⟨d', hopen, -, -, hbehind⟩ := behind_of_openList hk hg hl
    obtain rfl := hopen.declares.unique hd.declares
    have hbetween : between lines p.declaredAt (j + 1) =
        between lines p.declaredAt j ++ [line] := between_succ hopen.before hline
    change Pending.Behind _ _ _ (between lines p.declaredAt (j + 1)) _
    rw [hbetween]
    exact Pending.behind_accept hbehind line
  | @opening d text hc hl ha hd ht ho =>
    rintro q hq d' hd'
    obtain rfl := OpenList.commented.inj (Option.some.inj hq)
    obtain rfl : d = d' := by simpa [hd] using (hd'.declares.recognize? hline).2.2
    change Pending.Behind _ _ _ (between lines j (j + 1)) _
    rw [between_self]
    exact Pending.behind_start (render?_of_comment? ht) _ _
  | unclosed hc hl hp => exact gathers_of_bare rfl
  | skipped hc hl ha hd ht ho => exact gathers_of_bare rfl
  | comment hc => exact gathers_of_rest rfl
  | finished hc hl hf => exact gathers_of_rest rfl
  | closed hc hl hp => exact gathers_of_rest rfl
  | whole hc hl ha hd ht ho => exact gathers_of_rest rfl
  | passed hc hl ha hd ht ho => exact gathers_of_rest rfl
  | other hc hl ha hd => exact gathers_of_rest rfl
  | _ =>
    rename_i hc hl ha -- an attribute
    exact gathers_of_rest hl

/-- The comment that a line finishes is complete. -/
theorem completes_of_inserted? (hline : lines[j]? = some line) (hk : Knows o lines j s)
    (hg : Gathers o lines j s) (ht : (step o s j line).inserted? = some text) :
    ∃ d, Completes o lines (s.declaring j) j (s.anchor?.getD j) d text := by
  generalize hr : step o s j line = r at ht
  cases hr ▸ step_case o s j line with
  | comment hc => simp [← hr, inserted?_of_comment hc] at ht
  | @finished p text' hc hl hf =>
    obtain rfl : text' = text := by simpa [Step.inserted?] using ht
    obtain ⟨d, hopen, hrun, hdepth, hbehind⟩ := behind_of_openList hk hg hl
    have hclose := closes_of_finish? hf
    rw [finish?_of_closes hclose] at hf
    rw [hdepth] at hclose
    have hcomplete := (Pending.behind_accept hbehind line).complete? hopen.isOpen
    rw [← between_succ hopen.before hline, hf] at hcomplete
    refine ⟨d, ?_⟩
    simp only [State.declaring, State.anchor?, hl, Option.getD_some]
    exact ⟨.wrapped hopen (hopen.closes hline hc hclose), hrun, hcomplete⟩
  | @whole d text' hc hl ha hd hcomment ho =>
    obtain rfl : text' = text := by simpa [Step.inserted?] using ht
    have hrest := hk.rest hl
    have hdeclares : Declares lines j d := ⟨hrest.free, line, hline, hc, ha, hd⟩
    refine ⟨d, ?_⟩
    simp only [State.declaring, State.anchor?, hl]
    refine ⟨.whole hdeclares ho, hrest.run, ?_⟩
    rw [complete?_of_whole ho]
    exact render?_of_comment? hcomment
  | _ => simp [Step.inserted?, onAttribute] at ht

end TripleSlash.Scan
