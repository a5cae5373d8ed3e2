import TripleSlash.Text.Basic

/-! Texts with the first occurrence of another text replaced. -/
namespace TripleSlash.Text

variable {old t x : Text} {c : Char}

theorem replaceFirst_of_begins (new rest : Text) (ho : old ≠ []) :
    replaceFirst old new (old ++ rest) = new ++ rest := by
  obtain ⟨c, old, rfl⟩ := List.exists_cons_of_ne_nil ho
  simp [replaceFirst]

theorem replaceFirst_of_not_begins (new : Text) (h : ¬ old <+: c :: t) :
    replaceFirst old new (c :: t) = c :: replaceFirst old new t := by
  simp [replaceFirst, h]

/-- What begins in no part of a text is replaced behind it. -/
theorem replaceFirst_append_of_apart (new : Text)
    (hx : ∀ a b, x = a ++ b → b ≠ [] → ¬ old <+: b ++ t) :
    replaceFirst old new (x ++ t) = x ++ replaceFirst old new t := by
  induction x with
  | nil => rfl
  | cons c x ih =>
    have hrest := ih fun a b hab hb => hx (c :: a) b (by simp [hab]) hb
    have hhead : ¬ old <+: c :: (x ++ t) := hx [] (c :: x) rfl (by simp)
    rw [List.cons_append, replaceFirst_of_not_begins new hhead, hrest]
    rfl

theorem replaceFirst_append {new : Text} (hx : c ∉ x) :
    replaceFirst (c :: old) new (x ++ t) = x ++ replaceFirst (c :: old) new t := by
  apply replaceFirst_append_of_apart
  rintro a b rfl hb hp
  obtain ⟨d, b, rfl⟩ := List.exists_cons_of_ne_nil hb
  rw [List.cons_append, List.cons_prefix_cons] at hp
  simp [hp.1] at hx

theorem replaceFirst_cases (new t : Text) (ho : old ≠ []) :
    replaceFirst old new t = t ∨
      ∃ a b, t = a ++ (old ++ b) ∧ replaceFirst old new t = a ++ (new ++ b) := by
  induction t with
  | nil => simp [replaceFirst, ho]
  | cons c t ih =>
    by_cases hp : old <+: c :: t
    · obtain ⟨b, hb⟩ := hp
      exact .inr ⟨[], b, hb.symm, hb ▸ replaceFirst_of_begins new b ho⟩
    · rw [replaceFirst_of_not_begins new hp]
      rcases ih with ih | ⟨a, b, hab, he⟩
      · exact .inl (by rw [ih])
      · exact .inr ⟨c :: a, b, by simp [hab], by simp [he]⟩

theorem isPrefix_concat (hc : c ∉ old) : old <+: t ++ [c] ↔ old <+: t := by
  refine ⟨fun h => ?_, fun h => h.trans (List.prefix_append t [c])⟩
  rcases List.prefix_concat_iff.mp h with rfl | h
  · simp at hc
  · exact h

/-- A last character that `old` does not have stays where it is. -/
theorem replaceFirst_concat (new : Text) (hc : c ∉ old) (ho : old ≠ []) (t : Text) :
    replaceFirst old new (t ++ [c]) = replaceFirst old new t ++ [c] := by
  induction t with
  | nil =>
    have hnot : ¬ old <+: [c] := fun h => ho (List.prefix_nil.mp ((isPrefix_concat hc).mp h))
    rw [List.nil_append, replaceFirst_of_not_begins new hnot]
    simp [replaceFirst, ho]
  | cons d t ih =>
    by_cases hp : old <+: d :: t
    · obtain ⟨rest, hrest⟩ := hp
      rw [← hrest, List.append_assoc, replaceFirst_of_begins new _ ho,
        replaceFirst_of_begins new _ ho, List.append_assoc]
    · have hnot : ¬ old <+: d :: (t ++ [c]) := by
        rw [← List.cons_append, isPrefix_concat hc]
        exact hp
      rw [List.cons_append, replaceFirst_of_not_begins new hnot, ih,
        replaceFirst_of_not_begins new hp, List.cons_append]

end TripleSlash.Text
