import TripleSlash.Files.Search

/-! The order of paths. What a search returns is in this order, and no path is in it twice, not
even in another spelling. -/
namespace TripleSlash

namespace Path

theorem le_trans (p q r : Text) (hpq : le p q = true) (hqr : le q r = true) : le p r = true :=
  Std.TransCmp.isLE_trans hpq hqr

theorem le_total (p q : Text) : (le p q || le q p) = true := by
  have hswap : compare (key q) (key p) = (compare (key p) (key q)).swap :=
    Std.OrientedCmp.eq_swap
  rw [le, le, hswap]
  cases compare (key p) (key q) <;> rfl

/-- Paths that are each in order to the other are spellings of one. -/
theorem key_eq_of_le {p q : Text} (hpq : le p q = true) (hqp : le q p = true) : key p = key q :=
  Std.LawfulEqCmp.eq_of_compare (Std.OrientedCmp.isLE_antisymm hpq hqp)

/-- One path goes before another. -/
def Precedes (p q : Text) : Prop := le p q = true ∧ key p ≠ key q

instance (p q : Text) : Decidable (Precedes p q) := inferInstanceAs (Decidable (_ ∧ _))

theorem Precedes.trans_le {p q r : Text} (hpq : Precedes p q) (hqr : le q r = true) :
    Precedes p r := by
  refine ⟨le_trans p q r hpq.1 hqr, fun heq => hpq.2 (key_eq_of_le hpq.1 ?_)⟩
  -- `p` and `r` are the same to the order, so that `q` does not go behind `p` either
  rwa [le, heq, ← le]

theorem distinct_sublist (ps : List Text) : (distinct ps).Sublist ps := by
  fun_induction distinct ps with
  | case1 p q ps heq ih => exact ih.trans ((List.sublist_cons_self q ps).cons_cons p)
  | case2 p q ps hne ih => exact ih.cons_cons p
  | case3 ps => exact List.Sublist.refl ps

theorem distinct_precedes {ps : List Text} (h : ps.Pairwise fun p q => le p q) :
    (distinct ps).Pairwise Precedes := by
  fun_induction distinct ps with
  | case1 p q ps heq ih => exact ih (h.sublist ((List.sublist_cons_self q ps).cons_cons p))
  | case2 p q ps hne ih =>
    obtain ⟨hp, hqs⟩ := List.pairwise_cons.1 h
    refine List.pairwise_cons.2 ⟨fun r hr => ?_, ih hqs⟩
    have hpq : Precedes p q := ⟨hp q (by simp), hne⟩
    rcases List.mem_cons.1 ((distinct_sublist _).mem hr) with rfl | hr
    · exact hpq
    · exact hpq.trans_le ((List.pairwise_cons.1 hqs).1 r hr)
  | case3 ps hshort =>
    rcases ps with _ | ⟨p, _ | ⟨q, ps⟩⟩
    · exact .nil
    · exact List.pairwise_singleton _ _
    · exact absurd rfl (hshort p q ps)

theorem distinct_of_precedes {ps : List Text} (h : ps.Pairwise Precedes) : distinct ps = ps := by
  fun_induction distinct ps with
  | case1 p q ps heq ih => exact absurd heq (List.rel_of_pairwise_cons h (by simp)).2
  | case2 p q ps hne ih => rw [ih h.of_cons]
  | case3 ps => rfl

end Path

namespace Search

theorem sorted_precedes (ps : List Text) : (sorted ps).Pairwise Path.Precedes :=
  Path.distinct_precedes (List.pairwise_mergeSort Path.le_trans Path.le_total ps)

/-- Paths that are in order, each in one spelling, stay as they are. -/
theorem sorted_of_precedes {ps : List Text} (h : ps.Pairwise Path.Precedes) : sorted ps = ps := by
  rw [sorted, List.mergeSort_of_pairwise (h.imp And.left), Path.distinct_of_precedes h]

end Search
end TripleSlash
