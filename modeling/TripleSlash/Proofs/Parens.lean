import TripleSlash.Parens

/-! Lists of different depths in the same text: the deeper one closes later. A list that one text
leaves open goes on in the next one. -/
namespace TripleSlash.Parens

variable {t before rest : Text} {c : Char} {d e n : Nat}

theorem scan_open : scan d ('(' :: t) = (scan (d + 1) t).cons '(' := rfl

theorem scan_close : scan d (')' :: t) =
    if d ≤ 1 then .closed [] t else (scan (d - 1) t).cons ')' := rfl

theorem scan_other (ho : c ≠ '(') (hc : c ≠ ')') : scan d (c :: t) = (scan d t).cons c := by
  simp only [scan]

theorem cons_eq_closed {r : Result} :
    r.cons c = .closed before rest ↔ ∃ x, r = .closed x rest ∧ c :: x = before := by
  cases r with
  | unclosed n => simp [Result.cons]
  | closed x y => grind [Result.cons]

/-- A list closes in front of a parenthesis. -/
theorem eq_of_scan_closed (h : scan d t = .closed before rest) : t = before ++ ')' :: rest := by
  fun_induction scan d t generalizing before with
  | case1 => simp at h
  | case3 d t hd =>
    obtain ⟨rfl, rfl⟩ : [] = before ∧ t = rest := by simpa using h
    rfl
  | case2 d t ih | case4 d t hd ih | case5 d c t ho hc ih =>
    obtain ⟨x, hx, rfl⟩ := cons_eq_closed.mp h
    simp [ih hx]

theorem inside_prefix (d : Nat) (t : Text) : inside d t <+: t := by
  unfold inside
  split
  · exact List.prefix_rfl
  next before rest h => exact ⟨')' :: rest, (eq_of_scan_closed h).symm⟩

/-- Text without parentheses changes no depth. -/
theorem closes_append {x : Text} (ho : '(' ∉ x) (hc : ')' ∉ x) :
    closes d (x ++ t) = closes d t ∧ depthAfter d (x ++ t) = depthAfter d t := by
  induction x with
  | nil => exact ⟨rfl, rfl⟩
  | cons c x ih =>
    simp only [List.mem_cons, not_or] at ho hc
    have hx := ih ho.2 hc.2
    rw [List.cons_append]
    unfold closes depthAfter at hx ⊢
    rw [scan_other (Ne.symm ho.1) (Ne.symm hc.1)]
    cases hs : scan d (x ++ t) <;> simpa [hs, Result.cons] using hx

/-- Where the deeper list closes, the other one has closed; where both stay open, the deeper one
stays deeper. -/
theorem depthAfter_lt (h : d < e) (he : closes d t = false) :
    closes e t = false ∧ depthAfter d t < depthAfter e t := by
  induction t generalizing d e with
  | nil => exact ⟨rfl, h⟩
  | cons c t ih =>
    unfold closes depthAfter at *
    by_cases ho : c = '('
    · subst ho
      have := ih (d := d + 1) (e := e + 1) (by omega)
      revert this he
      simp only [scan_open]
      cases scan (d + 1) t <;> cases scan (e + 1) t <;> simp [Result.cons]
    · by_cases hc : c = ')'
      · subst hc
        have hd : ¬ d ≤ 1 := by
          intro hd
          simp [scan_close, hd] at he
        have := ih (d := d - 1) (e := e - 1) (by omega)
        revert this he
        simp only [scan_close, hd, show ¬ e ≤ 1 by omega, if_false]
        cases scan (d - 1) t <;> cases scan (e - 1) t <;> simp [Result.cons]
      · have := ih h
        revert this he
        simp only [scan_other ho hc]
        cases scan d t <;> cases scan e t <;> simp [Result.cons]

theorem depthAfter_pos (hd : 0 < d) (h : closes d t = false) : 0 < depthAfter d t := by
  unfold closes at h
  unfold depthAfter
  fun_induction scan d t with
  | case1 d => exact hd
  | case2 d t ih =>
    have := ih (by omega)
    revert this h
    cases scan (d + 1) t <;> simp [Result.cons]
  | case3 d t hle => simp at h
  | case4 d t hle ih =>
    have := ih (by omega)
    revert this h
    cases scan (d - 1) t <;> simp [Result.cons]
  | case5 d c t ho hc ih =>
    have := ih hd
    revert this h
    cases scan d t <;> simp [Result.cons]

variable {x y : Text}

theorem cons_eq_unclosed {r : Result} : r.cons c = .unclosed n ↔ r = .unclosed n := by
  cases r <;> simp [Result.cons]

/-- Behind a text that leaves a list open, the list goes on at its depth. -/
theorem scan_append_of_unclosed (h : scan d x = .unclosed n) :
    scan d (x ++ y) = x.foldr Result.cons (scan n y) := by
  fun_induction scan d x with
  | case1 d =>
    obtain rfl : d = n := by simpa using h
    rfl
  | case2 d x ih =>
    rw [List.cons_append, scan_open, ih (cons_eq_unclosed.mp h)]
    rfl
  | case3 d x hd => simp at h
  | case4 d x hd ih =>
    rw [List.cons_append, scan_close, if_neg hd, ih (cons_eq_unclosed.mp h)]
    rfl
  | case5 d c x ho hc ih =>
    rw [List.cons_append, scan_other ho hc, ih (cons_eq_unclosed.mp h)]
    rfl

theorem scan_append_of_closed (h : scan d x = .closed before rest) :
    scan d (x ++ y) = .closed before (rest ++ y) := by
  fun_induction scan d x generalizing before with
  | case1 => simp at h
  | case3 d x hd =>
    obtain ⟨rfl, rfl⟩ : [] = before ∧ x = rest := by simpa using h
    rw [List.cons_append, scan_close, if_pos hd]
  | case2 d x ih =>
    obtain ⟨z, hz, rfl⟩ := cons_eq_closed.mp h
    rw [List.cons_append, scan_open, ih hz]
    rfl
  | case4 d x hd ih =>
    obtain ⟨z, hz, rfl⟩ := cons_eq_closed.mp h
    rw [List.cons_append, scan_close, if_neg hd, ih hz]
    rfl
  | case5 d c x ho hc ih =>
    obtain ⟨z, hz, rfl⟩ := cons_eq_closed.mp h
    rw [List.cons_append, scan_other ho hc, ih hz]
    rfl

theorem foldr_cons_unclosed (x : Text) (n : Nat) :
    x.foldr Result.cons (.unclosed n) = .unclosed n := by
  induction x with
  | nil => rfl
  | cons c x ih => simp [ih, Result.cons]

theorem foldr_cons_closed (x before rest : Text) :
    x.foldr Result.cons (.closed before rest) = .closed (x ++ before) rest := by
  induction x with
  | nil => rfl
  | cons c x ih => simp [ih, Result.cons]

/-- A list that stays open over a text is read on behind it. -/
theorem append_of_not_closes (h : closes d x = false) :
    closes d (x ++ y) = closes (depthAfter d x) y ∧
      depthAfter d (x ++ y) = depthAfter (depthAfter d x) y ∧
      inside d (x ++ y) = x ++ inside (depthAfter d x) y := by
  unfold closes depthAfter inside at *
  cases hx : scan d x with
  | closed before rest => simp [hx] at h
  | unclosed n =>
    rw [scan_append_of_unclosed hx]
    cases scan n y <;> simp [foldr_cons_unclosed, foldr_cons_closed]

theorem closes_append_of_closes (h : closes d x = true) : closes d (x ++ y) = true := by
  unfold closes at *
  cases hx : scan d x with
  | closed before rest => simp [scan_append_of_closed hx]
  | unclosed n => simp [hx] at h

theorem not_closes_of_append (h : closes d (x ++ y) = false) : closes d x = false := by
  cases hx : closes d x with
  | false => rfl
  | true => simp [closes_append_of_closes hx] at h

theorem inside_of_not_closes (h : closes d x = false) : inside d x = x := by
  unfold closes inside at *
  cases hx : scan d x <;> simp_all

end TripleSlash.Parens
