import Mathlib.Data.List.Basic
import TripleSlash.Document.Revision

/-! Edits in the order of their lines. Edits of one line keep the order in which they are given, and
there is only one such order. -/
namespace TripleSlash.Edit

variable {es es' xs ys : List Edit} {n : Nat}

/-- The edits of one line, in the order in which they are given. -/
def atLine (es : List Edit) (n : Nat) : List Edit := es.filter (·.line = n)

/-- The same edits in another order, but for those of one line. -/
def Reordered (es es' : List Edit) : Prop := ∀ n, atLine es' n = atLine es n

/-- Edits in the order of their lines. -/
def Sorted (es : List Edit) : Prop := es.Pairwise (·.line ≤ ·.line)

theorem mem_atLine {e : Edit} : e ∈ atLine es n ↔ e ∈ es ∧ e.line = n := by
  simp [atLine]

theorem atLine_append (xs ys : List Edit) (n : Nat) :
    atLine (xs ++ ys) n = atLine xs n ++ atLine ys n := List.filter_append ..

theorem atLine_eq_nil (h : ∀ e ∈ es, e.line ≠ n) : atLine es n = [] := by
  simpa [atLine] using h

theorem Reordered.symm (h : Reordered es es') : Reordered es' es := fun n => (h n).symm

theorem Reordered.mem_iff (h : Reordered es es') {e : Edit} : e ∈ es' ↔ e ∈ es := by
  have hline := congrArg (e ∈ ·) (h e.line)
  simpa [mem_atLine] using hline

theorem Sorted.head_le {x e : Edit} (h : Sorted (x :: xs)) (he : e ∈ x :: xs) :
    x.line ≤ e.line := by
  rcases List.mem_cons.mp he with rfl | he
  · exact Nat.le_refl _
  · exact List.rel_of_pairwise_cons h he

theorem Reordered.tail {x : Edit} (h : Reordered (x :: xs) (x :: ys)) : Reordered xs ys := by
  intro n
  have hn := h n
  by_cases hx : x.line = n
  · simpa [atLine, hx] using hn
  · simpa [atLine, hx] using hn

/-- Edits have one order in which their lines ascend and those of one line stand as they are. -/
theorem eq_of_sorted (hx : Sorted xs) (hy : Sorted ys) (h : Reordered xs ys) : ys = xs := by
  induction xs generalizing ys with
  | nil => exact List.eq_nil_iff_forall_not_mem.mpr fun e he => by simpa using h.mem_iff.mp he
  | cons x xs ih =>
    cases ys with
    | nil => simpa using h.mem_iff.mpr (List.mem_cons_self (a := x) (l := xs))
    | cons y ys =>
      have hxy : x.line ≤ y.line := hx.head_le (h.mem_iff.mp List.mem_cons_self)
      have hyx : y.line ≤ x.line := hy.head_le (h.mem_iff.mpr List.mem_cons_self)
      have hfirst := h x.line
      simp only [atLine, Nat.le_antisymm hyx hxy, decide_true, List.filter_cons_of_pos] at hfirst
      obtain rfl : y = x := (List.cons.inj hfirst).1
      rw [ih hx.of_cons hy.of_cons h.tail]

theorem line_le_trans (a b c : Edit) (hab : decide (a.line ≤ b.line) = true)
    (hbc : decide (b.line ≤ c.line) = true) : decide (a.line ≤ c.line) = true := by
  simp only [decide_eq_true_eq] at *
  omega

theorem line_le_total (a b : Edit) :
    (decide (a.line ≤ b.line) || decide (b.line ≤ a.line)) = true := by
  simp only [Bool.or_eq_true, decide_eq_true_eq]
  omega

theorem sorted_mergeSort (es : List Edit) : Sorted (es.mergeSort (·.line ≤ ·.line)) :=
  (List.pairwise_mergeSort line_le_trans line_le_total es).imp fun hab => by simpa using hab

/-- Sorting keeps the edits of each line in their order. -/
theorem reordered_mergeSort (es : List Edit) :
    Reordered es (es.mergeSort (·.line ≤ ·.line)) := by
  intro n
  have hline : (atLine es n).Pairwise fun a b => decide (a.line ≤ b.line) = true := by
    refine List.pairwise_of_forall_mem_list fun a ha b hb => ?_
    simp [(mem_atLine.mp ha).2, (mem_atLine.mp hb).2]
  have hsub : (atLine es n).Sublist (es.mergeSort (·.line ≤ ·.line)) :=
    List.sublist_mergeSort line_le_trans line_le_total hline List.filter_sublist
  have hfilter := hsub.filter (·.line = n)
  have hself : (atLine es n).filter (·.line = n) = atLine es n := by simp [atLine]
  rw [hself] at hfilter
  have hlength := ((List.mergeSort_perm es (·.line ≤ ·.line)).filter (·.line = n)).length_eq
  exact (hfilter.eq_of_length hlength.symm).symm

end TripleSlash.Edit
