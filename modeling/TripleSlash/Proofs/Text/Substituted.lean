import TripleSlash.Proofs.Text.Replaced

/-! Texts with their line breaks written in another way. What is read in a text and does not look
at line breaks, such as the marker of a comment, is read in the other text at the same place. -/
namespace TripleSlash.Text

variable {σ : Char → Text} {a b t x : Text} {c : Char}

/-- A text with `σ c` in the place of each character `c`. -/
def subst (σ : Char → Text) (t : Text) : Text := t.flatMap σ

/-- Nothing is written in another way in a text. -/
def Spares (σ : Char → Text) (t : Text) : Prop := ∀ c ∈ t, σ c = [c]

/-- Line breaks alone are written in another way. What stands for them begins like a line break and
begins no hole. -/
structure Rebreaks (σ : Char → Text) : Prop where
  other : ∀ c, c ≠ '\n' → c ≠ '\r' → σ c = [c]
  isBreak : ∀ c, c = '\n' ∨ c = '\r' →
    ∃ d rest, σ c = d :: rest ∧ (d = '\n' ∨ d = '\r') ∧ '{' ∉ rest

@[simp] theorem subst_nil : subst σ [] = [] := rfl

@[simp] theorem subst_append (a b : Text) : subst σ (a ++ b) = subst σ a ++ subst σ b :=
  List.flatMap_append

theorem subst_cons (c : Char) (t : Text) : subst σ (c :: t) = σ c ++ subst σ t := rfl

theorem subst_of_spares (h : Spares σ t) : subst σ t = t := by
  induction t with
  | nil => rfl
  | cons c t ih => rw [subst_cons, h c (by simp), ih fun d hd => h d (by simp [hd])]; rfl

theorem spares_of_subset (hab : a ⊆ b) (h : Spares σ b) : Spares σ a := fun c hc => h c (hab hc)

theorem spares_of_isInfix (hab : a <:+: b) (h : Spares σ b) : Spares σ a :=
  spares_of_subset hab.subset h

theorem Rebreaks.spares (hσ : Rebreaks σ) (hf : '\n' ∉ t) (hr : '\r' ∉ t) : Spares σ t :=
  fun c hc => hσ.other c (fun h => hf (h ▸ hc)) fun h => hr (h ▸ hc)

/-- A text without line breaks begins where it began. -/
theorem Rebreaks.isPrefix_subst (hσ : Rebreaks σ) (hf : '\n' ∉ x) (hr : '\r' ∉ x) :
    x <+: subst σ t ↔ x <+: t := by
  constructor
  · intro h
    induction t generalizing x with
    | nil => exact h
    | cons c t ih =>
      cases x with
      | nil => exact List.nil_prefix
      | cons d x =>
        simp only [List.mem_cons, not_or] at hf hr
        by_cases hc : c = '\n' ∨ c = '\r'
        · obtain ⟨e, rest, he, hbreak, -⟩ := hσ.isBreak c hc
          rw [subst_cons, he, List.cons_append, List.cons_prefix_cons] at h
          obtain rfl := h.1
          rcases hbreak with rfl | rfl
          · exact absurd rfl hf.1
          · exact absurd rfl hr.1
        · rw [not_or] at hc
          rw [subst_cons, hσ.other c hc.1 hc.2, List.singleton_append,
            List.cons_prefix_cons] at h
          exact List.cons_prefix_cons.mpr ⟨h.1, ih hf.2 hr.2 h.2⟩
  · rintro ⟨rest, rfl⟩
    rw [subst_append, subst_of_spares (hσ.spares hf hr)]
    exact List.prefix_append x _

/-- What a text without line breaks is replaced by stands in the same place. -/
theorem Rebreaks.replaceFirst_subst (hσ : Rebreaks σ) {old : Text} (hf : '\n' ∉ '{' :: old)
    (hr : '\r' ∉ '{' :: old) (new t : Text) :
    replaceFirst ('{' :: old) (subst σ new) (subst σ t) =
      subst σ (replaceFirst ('{' :: old) new t) := by
  induction t with
  | nil => rfl
  | cons c t ih =>
    by_cases hp : '{' :: old <+: c :: t
    · obtain ⟨rest, hrest⟩ := hp
      rw [← hrest, subst_append, subst_of_spares (hσ.spares hf hr),
        replaceFirst_of_begins _ _ (by simp), replaceFirst_of_begins _ _ (by simp), subst_append]
    · rw [replaceFirst_of_not_begins new hp, subst_cons, subst_cons, ← ih]
      by_cases hc : c = '\n' ∨ c = '\r'
      · obtain ⟨d, rest, hd, hbreak, hbrace⟩ := hσ.isBreak c hc
        apply replaceFirst_append
        rw [hd, List.mem_cons, not_or]
        exact ⟨by rcases hbreak with rfl | rfl <;> decide, hbrace⟩
      · rw [not_or] at hc
        have hspared := hσ.other c hc.1 hc.2
        rw [hspared, List.singleton_append]
        refine replaceFirst_of_not_begins _ fun h => hp ?_
        rw [← hσ.isPrefix_subst hf hr, subst_cons, hspared]
        exact h

/-- Puts `x` in the place of the character `a`. -/
def inPlaceOf (a : Char) (x : Text) (c : Char) : Text := if c = a then x else [c]

theorem spares_inPlaceOf {a : Char} {x : Text} (ha : a ∉ t) : Spares (inPlaceOf a x) t := by
  intro c hc
  refine if_neg ?_
  rintro rfl
  exact ha hc

theorem rebreaks_inPlaceOf {a d : Char} {rest : Text} (ha : a = '\n' ∨ a = '\r')
    (hd : d = '\n' ∨ d = '\r') (hrest : '{' ∉ rest) : Rebreaks (inPlaceOf a (d :: rest)) where
  other c hf hr := by
    refine if_neg ?_
    rintro rfl
    exact ha.elim hf hr
  isBreak c hc := by
    by_cases hca : c = a
    · exact ⟨d, rest, if_pos hca, hd, hrest⟩
    · exact ⟨c, [], if_neg hca, hc, by simp⟩

end TripleSlash.Text
