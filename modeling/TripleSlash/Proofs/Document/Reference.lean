import Mathlib.Data.List.Induction
import TripleSlash.Proofs.Document.Ordered
import TripleSlash.Proofs.Document.Written

/-! Edits applied line by line: in front of each line stand the texts that are put there, and the
line itself follows unless it is taken out. This is what a batch of edits gives, in whichever order
its edits come, and a batch that cannot be applied fails at its first edit that does not fit. -/
namespace TripleSlash

namespace Edit

/-- The text that an edit puts in front of its line. -/
def added : Edit → Text
  | insert _ text => text
  | delete _ => []

def isDelete : Edit → Bool
  | insert _ _ => false
  | delete _ => true

/-- Of the edits of one line none follows a deletion. -/
def Alive (es : List Edit) : Prop := es.Pairwise fun e _ => e.isDelete = false

theorem eq_delete {e : Edit} (h : e.isDelete = true) : e = delete e.line := by
  cases e with
  | insert n text => simp [isDelete] at h
  | delete n => rfl

end Edit

namespace Line

open Edit

variable {doc front lines : List Line} {l : Line} {start n : Nat} {e : Edit}
  {es es' before after ordered : List Edit} {err : ApplyError} {t : Text}

/-- A line with the edits that are made at it. -/
def edited (l : Line) (es : List Edit) : Text :=
  es.flatMap added ++ if es.any isDelete then [] else l.full

/-- The text of some lines, counted from a number on, that are edited each by itself. -/
def editedFrom (es : List Edit) (n : Nat) (lines : List Line) : Text :=
  (lines.zipIdx n).flatMap fun p => p.1.edited (atLine es p.2)

/-- The text of a document whose lines are edited each by itself. -/
def reference (doc : List Line) (es : List Edit) : Text := editedFrom es 0 doc

/-- Edits at lines of a document, with none behind the deletion of its line. -/
structure Fits (doc : List Line) (es : List Edit) : Prop where
  inside : ∀ e ∈ es, e.line < doc.length
  alive : ∀ n, Alive (atLine es n)

/-- Why an edit does not fit behind others. -/
def objection? (doc : List Line) (before : List Edit) (e : Edit) : Option ApplyError :=
  if doc.length ≤ e.line then some (.outOfRange e.line doc.length)
  else if .delete e.line ∈ before then some (.overlapping e.line)
  else none

theorem editedFrom_cons (es : List Edit) (n : Nat) (l : Line) (lines : List Line) :
    editedFrom es n (l :: lines) = l.edited (atLine es n) ++ editedFrom es (n + 1) lines := by
  simp [editedFrom, List.zipIdx_cons]

theorem editedFrom_congr (h : ∀ m, n ≤ m → atLine es' m = atLine es m) :
    editedFrom es' n lines = editedFrom es n lines := by
  induction lines generalizing n with
  | nil => rfl
  | cons l lines ih =>
    rw [editedFrom_cons, editedFrom_cons, h n (Nat.le_refl n),
      ih fun m hm => h m (Nat.le_of_succ_le hm)]

theorem reference_reordered (h : Reordered es es') : reference doc es' = reference doc es :=
  editedFrom_congr fun m _ => h m

theorem Fits.reordered (h : Reordered es es') (hf : Fits doc es) : Fits doc es' where
  inside e he := hf.inside e (h.mem_iff.mp he)
  alive n := h n ▸ hf.alive n

theorem Fits.tail (h : Fits doc (e :: es)) : Fits doc es where
  inside e' he' := h.inside e' (List.mem_cons_of_mem e he')
  alive n := (h.alive n).sublist ((List.sublist_cons_self e es).filter _)

theorem atLine_cons_self (e : Edit) (es : List Edit) :
    atLine (e :: es) e.line = e :: atLine es e.line := by
  simp [atLine]

theorem atLine_cons_of_lt (h : e.line < n) (es : List Edit) : atLine (e :: es) n = atLine es n := by
  simp [atLine, Nat.ne_of_lt h]

/-- Behind a deletion the lines ascend. -/
theorem Fits.delete_lt (h : Fits doc (.delete n :: es)) (hs : Sorted (.delete n :: es)) :
    ∀ e ∈ es, n + 1 ≤ e.line := by
  intro e he
  have hle : n ≤ e.line := List.rel_of_pairwise_cons hs he
  have hne : e.line ≠ n := by
    intro heq
    have halive : Alive (.delete n :: atLine es n) := atLine_cons_self (.delete n) es ▸ h.alive n
    have hdelete := List.rel_of_pairwise_cons halive (mem_atLine.mpr ⟨he, heq⟩)
    exact Bool.noConfusion hdelete
  omega

/-- The edits at a line are applied to it, and the others behind it. -/
theorem applyFrom_line (hd : doc = front ++ l :: lines) (hs : Sorted es) (hf : Fits doc es)
    (hes : ∀ e ∈ es, front.length ≤ e.line)
    (hnext : ∀ es, Sorted es → Fits doc es → (∀ e ∈ es, front.length + 1 ≤ e.line) →
      applyFrom doc (front.length + 1) es = .ok (editedFrom es (front.length + 1) lines)) :
    applyFrom doc front.length es = .ok (editedFrom es front.length (l :: lines)) := by
  induction es with
  | nil =>
    rw [applyFrom_succ hd (by simp), hnext [] hs hf (by simp), editedFrom_cons]
    rfl
  | cons e es ih =>
    rcases Nat.eq_or_lt_of_le (hes e List.mem_cons_self) with heq | hlt
    · have hbelow : editedFrom (e :: es) (front.length + 1) lines =
          editedFrom es (front.length + 1) lines :=
        editedFrom_congr fun m hm => atLine_cons_of_lt (by omega) es
      have hline : atLine (e :: es) front.length = e :: atLine es front.length :=
        heq ▸ atLine_cons_self e es
      rw [editedFrom_cons, hbelow, hline]
      cases e with
      | insert n text =>
        obtain rfl : front.length = n := heq
        have hrest : ∀ e ∈ es, front.length ≤ e.line := fun e he => List.rel_of_pairwise_cons hs he
        rw [applyFrom_insert hd, ih hs.of_cons hf.tail hrest, editedFrom_cons]
        simp [Except.map, edited, added, isDelete]
      | delete n =>
        obtain rfl : front.length = n := heq
        have hrest := hf.delete_lt hs
        have hnone : atLine es front.length = [] :=
          atLine_eq_nil fun e he => Nat.ne_of_gt (hrest e he)
        rw [applyFrom_delete hd, hnext es hs.of_cons hf.tail hrest, hnone]
        rfl
    · have hall : ∀ e' ∈ e :: es, front.length < e'.line := fun e' he' =>
        Nat.lt_of_lt_of_le hlt (hs.head_le he')
      have hnone : atLine (e :: es) front.length = [] :=
        atLine_eq_nil fun e' he' => Nat.ne_of_gt (hall e' he')
      rw [applyFrom_succ hd hall, hnext _ hs hf hall, editedFrom_cons, hnone]
      rfl

/-- Edits that fit are applied as if each line were edited by itself. -/
theorem applyFrom_of_fits (hd : doc = front ++ lines) (hs : Sorted es) (hf : Fits doc es)
    (hes : ∀ e ∈ es, front.length ≤ e.line) :
    applyFrom doc front.length es = .ok (editedFrom es front.length lines) := by
  induction lines generalizing front es with
  | nil =>
    have hnone : es = [] := by
      refine List.eq_nil_iff_forall_not_mem.mpr fun e he => ?_
      have hlt := hf.inside e he
      have hle := hes e he
      simp only [hd, List.append_nil] at hlt
      omega
    simp [hnone, applyFrom, editedFrom, hd]
  | cons l lines ih =>
    refine applyFrom_line hd hs hf hes fun es hs hf hes => ?_
    have hlength : (front ++ [l]).length = front.length + 1 := by simp
    rw [← hlength] at hes ⊢
    exact ih (by simp [hd]) hs hf hes

/-- An edit that can be applied leaves its failure to the edits behind it. -/
theorem applyFrom_error (hin : e.line < doc.length) (hstart : start ≤ e.line)
    (h : applyFrom doc (if e.isDelete then e.line + 1 else e.line) es = .error err) :
    applyFrom doc start (e :: es) = .error err := by
  unfold applyFrom
  rw [if_neg (by omega), if_neg (by omega)]
  cases e with
  | insert n text =>
    have hrest : applyFrom doc n es = .error err := h
    simp only [hrest]
    rfl
  | delete n =>
    have hrest : applyFrom doc (n + 1) es = .error err := h
    simp only [hrest]
    rfl

theorem objection?_eq_some : objection? doc before e = some err ↔
    doc.length ≤ e.line ∧ err = .outOfRange e.line doc.length ∨
      e.line < doc.length ∧ .delete e.line ∈ before ∧ err = .overlapping e.line := by
  unfold objection?
  by_cases hout : doc.length ≤ e.line
  · simp [hout, Nat.not_lt.mpr hout, eq_comm]
  · by_cases hmem : .delete e.line ∈ before
    · simp [hout, hmem, Nat.lt_of_not_le hout, eq_comm]
    · simp [hout, hmem]

/-- The first edit that does not fit is where application fails. If edits begin at a line, one above
it does not fit either. -/
theorem applyFrom_of_objection (hs : Sorted (before ++ e :: after)) (hf : Fits doc before)
    (hstart : ∀ b ∈ before, start ≤ b.line)
    (he : objection? doc before e = some err ∨
      before = [] ∧ e.line < doc.length ∧ e.line < start ∧ err = .overlapping e.line) :
    applyFrom doc start (before ++ e :: after) = .error err := by
  induction before generalizing start with
  | nil =>
    unfold applyFrom
    rcases he with he | ⟨-, hin, hlt, rfl⟩
    · obtain ⟨hout, rfl⟩ : doc.length ≤ e.line ∧ err = .outOfRange e.line doc.length := by
        simpa using objection?_eq_some.mp he
      simp [hout]
    · simp [hlt, Nat.not_le.mpr hin]
  | cons b before ih =>
    refine applyFrom_error (hf.inside b (by simp)) (hstart b (by simp)) ?_
    have hrest : ∀ b' ∈ before, (if b.isDelete then b.line + 1 else b.line) ≤ b'.line := by
      intro b' hb'
      cases b with
      | insert n text => exact List.rel_of_pairwise_cons hs (by simp [hb'])
      | delete n =>
        have hsorted : Sorted (.delete n :: before) :=
          List.Pairwise.sublist (List.sublist_append_left _ _) hs
        exact hf.delete_lt hsorted b' hb'
    refine ih hs.of_cons hf.tail hrest ?_
    simp only [reduceCtorEq, false_and, or_false] at he
    rcases objection?_eq_some.mp he with ⟨hout, rfl⟩ | ⟨hin, hmem, rfl⟩
    · exact .inl (objection?_eq_some.mpr (.inl ⟨hout, rfl⟩))
    · rcases List.mem_cons.mp hmem with rfl | hmem
      · -- Behind the deletion of its own line only this edit is left.
        have hnone : before = [] := by
          refine List.eq_nil_iff_forall_not_mem.mpr fun b hb => ?_
          have hgreater : e.line + 1 ≤ b.line := hrest b hb
          have hle : b.line ≤ e.line :=
            (List.pairwise_append.mp hs.of_cons).2.2 b hb e List.mem_cons_self
          omega
        exact .inr ⟨hnone, hin, Nat.lt_succ_self _, rfl⟩
      · exact .inl (objection?_eq_some.mpr (.inr ⟨hin, hmem, rfl⟩))

theorem objection?_eq_none :
    objection? doc before e = none ↔ e.line < doc.length ∧ .delete e.line ∉ before := by
  unfold objection?
  by_cases hout : doc.length ≤ e.line
  · simp [hout, Nat.not_lt.mpr hout]
  · simp [hout, Nat.lt_of_not_le hout]

/-- An edit that fits behind others can be made after them. -/
theorem Fits.concat (hf : Fits doc es) (he : objection? doc es e = none) :
    Fits doc (es ++ [e]) := by
  obtain ⟨hin, hnone⟩ := objection?_eq_none.mp he
  refine ⟨fun b hb => ?_, fun n => ?_⟩
  · rcases List.mem_append.mp hb with hb | hb
    · exact hf.inside b hb
    · rwa [List.mem_singleton.mp hb]
  · rw [Alive, atLine_append, List.pairwise_append]
    refine ⟨hf.alive n, ((List.pairwise_singleton _ e).sublist List.filter_sublist), ?_⟩
    intro b hb b' hb'
    obtain ⟨hmem, rfl⟩ := mem_atLine.mp hb
    obtain ⟨hlast, hline⟩ := mem_atLine.mp hb'
    obtain rfl := List.mem_singleton.mp hlast
    by_contra hdelete
    have hb : b = .delete b.line := eq_delete (by simpa using hdelete)
    exact hnone (hline ▸ hb ▸ hmem)

theorem exists_objection (h : ¬ Fits doc es) : ∃ before e after err,
    es = before ++ e :: after ∧ Fits doc before ∧ objection? doc before e = some err := by
  induction es using List.reverseRecOn with
  | nil => exact absurd ⟨by simp, fun n => List.Pairwise.nil⟩ h
  | append_singleton es e ih =>
    by_cases hf : Fits doc es
    · cases he : objection? doc es e with
      | none => exact absurd (hf.concat he) h
      | some err => exact ⟨es, e, [], err, rfl, hf, he⟩
    · obtain ⟨before, e', after, err, rfl, hbefore, he'⟩ := ih hf
      exact ⟨before, e', after ++ [e], err, by simp, hbefore, he'⟩

/-- Edits in the order of their lines are applied, or fail at the first one that does not fit. -/
theorem apply_of_reordered (h : Reordered es ordered) (hs : Sorted ordered) :
    apply doc es = applyFrom doc 0 ordered := by
  rw [apply, eq_of_sorted hs (sorted_mergeSort es) fun n =>
    (reordered_mergeSort es n).trans (h n).symm]

theorem apply_of_fits (hf : Fits doc es) : apply doc es = .ok (reference doc es) := by
  have hordered := reordered_mergeSort es
  rw [apply_of_reordered hordered (sorted_mergeSort es), ← reference_reordered hordered]
  have hfront : doc = [] ++ doc := rfl
  exact applyFrom_of_fits hfront (sorted_mergeSort es) (hf.reordered hordered) (by simp)

theorem apply_of_objection (h : Reordered es (before ++ e :: after))
    (hs : Sorted (before ++ e :: after)) (hf : Fits doc before)
    (he : objection? doc before e = some err) : apply doc es = .error err := by
  rw [apply_of_reordered h hs]
  exact applyFrom_of_objection hs hf (by simp) (.inl he)

theorem apply_of_not_fits (hf : ¬ Fits doc es) (h : Reordered es ordered) (hs : Sorted ordered) :
    ∃ before e after err, ordered = before ++ e :: after ∧ Fits doc before ∧
      objection? doc before e = some err ∧ apply doc es = .error err := by
  have hunfit : ¬ Fits doc ordered := fun hfits => hf (hfits.reordered h.symm)
  obtain ⟨before, e, after, err, rfl, hbefore, he⟩ := exists_objection hunfit
  exact ⟨before, e, after, err, rfl, hbefore, he, apply_of_objection h hs hbefore he⟩

theorem apply_eq_ok_iff : apply doc es = .ok t ↔ Fits doc es ∧ t = reference doc es := by
  constructor
  · intro h
    by_cases hf : Fits doc es
    · rw [apply_of_fits hf] at h
      exact ⟨hf, (Except.ok.inj h).symm⟩
    · obtain ⟨_, _, _, err, -, -, -, herr⟩ :=
        apply_of_not_fits hf (reordered_mergeSort es) (sorted_mergeSort es)
      exact absurd (h.symm.trans herr) (by simp)
  · rintro ⟨hf, rfl⟩
    exact apply_of_fits hf

theorem apply_eq_error_iff (h : Reordered es ordered) (hs : Sorted ordered) :
    apply doc es = .error err ↔ ∃ before e after, ordered = before ++ e :: after ∧
      Fits doc before ∧ objection? doc before e = some err := by
  constructor
  · intro herr
    have hf : ¬ Fits doc es := fun hf => absurd (herr.symm.trans (apply_of_fits hf)) (by simp)
    obtain ⟨before, e, after, err', hsplit, hbefore, he, herr'⟩ := apply_of_not_fits hf h hs
    obtain rfl : err = err' := Except.error.inj (herr.symm.trans herr')
    exact ⟨before, e, after, hsplit, hbefore, he⟩
  · rintro ⟨before, e, after, rfl, hbefore, he⟩
    exact apply_of_objection h hs hbefore he

theorem apply_reorder (h : Reordered es es') : apply doc es' = apply doc es := by
  have hordered : Reordered es (es'.mergeSort (·.line ≤ ·.line)) :=
    fun n => (reordered_mergeSort es' n).trans (h n)
  exact (apply_of_reordered hordered (sorted_mergeSort es')).symm

/-- At the lines above an edit that is out of range all edits have been looked at. -/
theorem alive_of_outOfRange {k : Nat} (h : apply doc es = .error (.outOfRange k n)) :
    ∀ m < doc.length, Alive (atLine es m) := by
  intro m hm
  have hordered := reordered_mergeSort es
  have hs := sorted_mergeSort es
  obtain ⟨before, e, after, hsplit, hbefore, he⟩ := (apply_eq_error_iff hordered hs).mp h
  have hout : doc.length ≤ e.line := by
    rcases objection?_eq_some.mp he with ⟨hout, -⟩ | ⟨-, -, herr⟩
    · exact hout
    · exact ApplyError.noConfusion herr
  rw [hsplit] at hordered hs
  have hrest : atLine (e :: after) m = [] := by
    refine atLine_eq_nil fun b hb => ?_
    have hle : e.line ≤ b.line := Sorted.head_le (List.pairwise_append.mp hs).2.1 hb
    omega
  rw [← hordered m, atLine_append, hrest, List.append_nil]
  exact hbefore.alive m

/-- A batch of edits is applied as if each line were edited by itself, in whichever order its edits
come, and it fails just when some edit is at no line or follows the deletion of its line. The first
such edit in the order of the lines is then named, so that a line edited after its deletion comes
before any line that is out of range. -/
theorem apply_reference (doc : List Line) (es : List Edit) :
    (∀ t, apply doc es = .ok t ↔ Fits doc es ∧ t = reference doc es) ∧
      (∀ es', Reordered es es' → apply doc es' = apply doc es) ∧
      (∀ ordered, Reordered es ordered → Sorted ordered → ∀ err,
        apply doc es = .error err ↔ ∃ before e after, ordered = before ++ e :: after ∧
          Fits doc before ∧ objection? doc before e = some err) ∧
      ∀ n < doc.length, ¬ Alive (atLine es n) → ∃ m, apply doc es = .error (.overlapping m) := by
  refine ⟨fun t => apply_eq_ok_iff, fun es' h => apply_reorder h,
    fun ordered h hs err => apply_eq_error_iff h hs, fun n hn hoverlap => ?_⟩
  have hf : ¬ Fits doc es := fun hf => hoverlap (hf.alive n)
  obtain ⟨_, _, _, err, -, -, -, herr⟩ :=
    apply_of_not_fits hf (reordered_mergeSort es) (sorted_mergeSort es)
  cases err with
  | outOfRange k lines => exact absurd (alive_of_outOfRange herr n hn) hoverlap
  | overlapping m => exact ⟨m, herr⟩

/-- Two comments for the last line and a line taken out, given from the bottom up; and a batch that
fails at the first line although its first edit is at no line. -/
theorem apply_reference_bottomUp :
    apply (ofText "a\r\n\nb".toList)
        [.insert 2 "y\n".toList, .insert 2 "z\n".toList, .delete 0] = .ok "\ny\nz\nb".toList ∧
      apply (ofText "a\r\n\nb".toList)
        [.delete 0, .insert 2 "y\n".toList, .insert 2 "z\n".toList] = .ok "\ny\nz\nb".toList ∧
      apply (ofText "a\r\n\nb".toList)
        [.insert 7 [], .delete 0, .insert 0 "x\n".toList] = .error (.overlapping 0) := by
  have hfits : Fits (ofText "a\r\n\nb".toList)
      [.insert 2 "y\n".toList, .insert 2 "z\n".toList, .delete 0] :=
    ⟨by decide, fun n => List.Pairwise.sublist List.filter_sublist (by simp [isDelete])⟩
  have hswapped : Reordered [.insert 2 "y\n".toList, .insert 2 "z\n".toList, .delete 0]
      [.delete 0, .insert 2 "y\n".toList, .insert 2 "z\n".toList] := by
    intro n
    match n with
    | 0 | 1 | 2 => rfl
    | n + 3 => rfl
  have hordered : Reordered [.insert 7 [], .delete 0, .insert 0 "x\n".toList]
      [.delete 0, .insert 0 "x\n".toList, .insert 7 []] := by
    intro n
    match n with
    | 0 | 1 | 2 | 3 | 4 | 5 | 6 | 7 => rfl
    | n + 8 => rfl
  have hbatch := (apply_reference (ofText "a\r\n\nb".toList) _).1 _ |>.mpr ⟨hfits, rfl⟩
  have hfirst : Fits (ofText "a\r\n\nb".toList) [.delete 0] :=
    ⟨by decide, fun n => List.Pairwise.sublist List.filter_sublist (by simp)⟩
  refine ⟨hbatch, ((apply_reference _ _).2.1 _ hswapped).trans hbatch, ?_⟩
  exact ((apply_reference _ _).2.2.1 _ hordered (by simp [Sorted, Edit.line]) _).mpr
    ⟨[.delete 0], _, _, rfl, hfirst, by decide⟩

end Line
end TripleSlash
