import Mathlib.Data.List.Infix
import TripleSlash.Proofs.Parens

/-! The parenthesis that closes a list is found by counting: it is the first one with which as many
lists are closed as are open in front of the text and opened in it. -/
namespace TripleSlash.Parens

variable {t before rest : Text} {c : Char} {d e n : Nat}

/-- A list that is open at a depth in front of a text is open everywhere in it. -/
def OpenThroughout (d : Nat) (t : Text) : Prop := ∀ x, x <+: t → x.count ')' < d + x.count '('

instance : Decidable (OpenThroughout d t) :=
  decidable_of_iff (∀ x ∈ t.inits, x.count ')' < d + x.count '(') (by simp [OpenThroughout])

theorem OpenThroughout.pos (h : OpenThroughout d t) : 0 < d := by
  simpa using h [] List.nil_prefix

theorem openThroughout_nil (hd : 0 < d) : OpenThroughout d [] := by
  intro x hx
  rw [List.prefix_nil.mp hx]
  simpa using hd

/-- In front of a text stands a character that takes the depth from `d` to `e`. -/
theorem openThroughout_cons (hd : 0 < d) (h : d + [c].count '(' = e + [c].count ')') :
    OpenThroughout d (c :: t) ↔ OpenThroughout e t := by
  have hcount : ∀ x : Text, (c :: x).count ')' < d + (c :: x).count '(' ↔
      x.count ')' < e + x.count '(' := by
    intro x
    rw [← List.singleton_append, List.count_append, List.count_append]
    omega
  constructor
  · intro hc x hx
    exact (hcount x).mp (hc (c :: x) (by simpa using hx))
  · intro ht x hx
    rcases List.prefix_cons_iff.mp hx with rfl | ⟨x, rfl, hprefix⟩
    · simpa using hd
    · exact (hcount x).mpr (ht x hprefix)

/-- Where a list stays open, the depth is the number of lists that are open. -/
theorem scan_eq_unclosed_iff (hd : 0 < d) :
    scan d t = .unclosed n ↔ OpenThroughout d t ∧ n + t.count ')' = d + t.count '(' := by
  fun_induction scan d t with
  | case1 d => simpa [openThroughout_nil hd] using eq_comm
  | case2 d t ih =>
    rw [cons_eq_unclosed, ih (by omega), openThroughout_cons hd (e := d + 1) (by simp)]
    simp only [List.count_cons_self, List.count_cons_of_ne (show '(' ≠ ')' by decide)]
    exact and_congr_right fun _ => by omega
  | case3 d t hle =>
    have hclosed : ¬ OpenThroughout d (')' :: t) := fun h => by
      have hfirst := h [')'] (by simp)
      simp at hfirst
      omega
    simp [hclosed]
  | case4 d t hle ih =>
    rw [cons_eq_unclosed, ih (by omega), openThroughout_cons hd (e := d - 1) (by simp; omega)]
    simp only [List.count_cons_self, List.count_cons_of_ne (show ')' ≠ '(' by decide)]
    exact and_congr_right fun _ => by omega
  | case5 d c t ho hc ih =>
    have ho : c ≠ '(' := ho
    have hc : c ≠ ')' := hc
    rw [cons_eq_unclosed, ih hd, openThroughout_cons hd (e := d) (by simp [ho, hc])]
    simp [List.count_cons_of_ne ho, List.count_cons_of_ne hc]

/-- In front of the parenthesis that closes it a list is still open. -/
theorem scan_before (h : scan d t = .closed before rest) :
    ∃ n ≤ 1, scan d before = .unclosed n := by
  fun_induction scan d t generalizing before with
  | case1 => simp at h
  | case2 d t ih =>
    obtain ⟨x, hx, rfl⟩ := cons_eq_closed.mp h
    obtain ⟨n, hn, hs⟩ := ih hx
    exact ⟨n, hn, by rw [scan_open, hs]; rfl⟩
  | case3 d t hle =>
    obtain ⟨rfl, -⟩ : [] = before ∧ t = rest := by simpa using h
    exact ⟨d, hle, rfl⟩
  | case4 d t hle ih =>
    obtain ⟨x, hx, rfl⟩ := cons_eq_closed.mp h
    obtain ⟨n, hn, hs⟩ := ih hx
    exact ⟨n, hn, by rw [scan_close, if_neg hle, hs]; rfl⟩
  | case5 d c t ho hc ih =>
    obtain ⟨x, hx, rfl⟩ := cons_eq_closed.mp h
    obtain ⟨n, hn, hs⟩ := ih hx
    exact ⟨n, hn, by rw [scan_other ho hc, hs]; rfl⟩

/-- A list closes at the first parenthesis with which no list is open any more. -/
theorem scan_eq_closed_iff (hd : 0 < d) : scan d t = .closed before rest ↔
    t = before ++ ')' :: rest ∧ OpenThroughout d before ∧
      before.count ')' + 1 = d + before.count '(' := by
  constructor
  · intro h
    obtain ⟨n, hn, hs⟩ := scan_before h
    obtain ⟨hopen, hcount⟩ := (scan_eq_unclosed_iff hd).mp hs
    have hlast := hopen before List.prefix_rfl
    exact ⟨eq_of_scan_closed h, hopen, by omega⟩
  · rintro ⟨rfl, hopen, hcount⟩
    have hs : scan d before = .unclosed 1 := (scan_eq_unclosed_iff hd).mpr ⟨hopen, by omega⟩
    rw [scan_append_of_unclosed hs, scan_close, if_pos (Nat.le_refl 1), foldr_cons_closed,
      List.append_nil]

end TripleSlash.Parens
