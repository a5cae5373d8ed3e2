import TripleSlash.Parameter

/-! Parameters as parts of their list. -/
namespace TripleSlash

variable {t : Text} {sep : Char → Bool} {depth : Nat}

theorem Brackets.split_isInfix (sep : Char → Bool) (depth : Nat) (t : Text) :
    ∃ piece pieces, split sep depth t = piece :: pieces ∧ piece <+: t ∧
      ∀ piece ∈ pieces, piece <:+: t := by
  induction t generalizing depth with
  | nil => exact ⟨[], [], rfl, List.nil_prefix, by simp⟩
  | cons c t ih =>
    unfold split
    split
    next =>
      obtain ⟨piece, pieces, hp, hpre, hall⟩ := @ih depth
      refine ⟨[], piece :: pieces, by rw [hp], List.nil_prefix, fun x hx => ?_⟩
      rcases List.mem_cons.mp hx with rfl | hx
      · exact hpre.isInfix.trans (List.suffix_cons c t).isInfix
      · exact (hall x hx).trans (List.suffix_cons c t).isInfix
    next =>
      obtain ⟨piece, pieces, hp, hpre, hall⟩ := @ih (step depth c)
      refine ⟨c :: piece, pieces, by rw [hp]; rfl, by simpa using hpre, fun x hx => ?_⟩
      exact (hall x hx).trans (List.suffix_cons c t).isInfix

theorem Brackets.infix_of_mem_split {piece : Text} (h : piece ∈ split sep depth t) :
    piece <:+: t := by
  obtain ⟨first, pieces, hs, hpre, hall⟩ := split_isInfix sep depth t
  rw [hs] at h
  rcases List.mem_cons.mp h with rfl | h
  · exact hpre.isInfix
  · exact hall piece h

theorem Brackets.before_prefix : before sep depth t <+: t := by
  induction t generalizing depth with
  | nil => exact List.nil_prefix
  | cons c t ih =>
    unfold before
    split
    · exact List.nil_prefix
    · simpa using ih

namespace Parameter

variable {p : Parameter}

theorem parse?_isInfix (h : parse? t = some p) : p.type <:+: t ∧ p.name <:+: t := by
  have htoken : ∀ x ∈ (tokens t).reverse, x <:+: t := by
    intro x hx
    have hx := (List.mem_filter.mp (List.mem_reverse.mp hx)).1
    exact (Brackets.infix_of_mem_split hx).trans Brackets.before_prefix.isInfix
  unfold parse? at h
  split at h
  next name type rest hr =>
    obtain rfl : ⟨type, name⟩ = p := by simpa using h
    exact ⟨htoken type (by simp [hr]), htoken name (by simp [hr])⟩
  next => simp at h

/-- Type and name of a parameter stand in its list. -/
theorem infix_of_mem_parseList (h : p ∈ parseList t) : p.type <:+: t ∧ p.name <:+: t := by
  obtain ⟨piece, hpiece, hp⟩ := List.mem_filterMap.mp h
  have hin := Brackets.infix_of_mem_split hpiece
  exact ⟨(parse?_isInfix hp).1.trans hin, (parse?_isInfix hp).2.trans hin⟩

end Parameter
end TripleSlash
