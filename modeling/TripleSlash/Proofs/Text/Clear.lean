import Mathlib.Data.List.Infix
import TripleSlash.Proofs.Text.Replaced

/-! Texts that another text does not come from. Texts that neither hold it nor end in a beginning of
it can be joined, and it does not come into being where they meet. Nor does it where the second one
begins with a character that is none of it. -/
namespace TripleSlash.Text

variable {m t x y new : Text}

/-- The text `m` begins nowhere in `t`, whatever follows `t`. -/
def Clear (m t : Text) : Prop := ∀ a b rest, t = a ++ b → b ≠ [] → ¬ m <+: b ++ rest

/-- A text ends in a beginning of `m`. -/
def Dangles (m t : Text) : Prop := ∃ p ∈ m.inits, p ≠ [] ∧ p <:+ t

instance : Decidable (Dangles m t) := inferInstanceAs (Decidable (∃ p ∈ m.inits, _))

/-- A text begins with a character that does not stand in `m`. -/
def Parted (m t : Text) : Prop := ∃ c ∈ t.head?, c ∉ m

theorem Parted.append (h : Parted m x) (y : Text) : Parted m (x ++ y) := by
  cases x with
  | nil => simp [Parted] at h
  | cons c x => exact h

theorem not_isInfix_of_clear (hm : m ≠ []) (h : Clear m t) : ¬ m <:+: t := by
  rintro ⟨a, b, rfl⟩
  exact h a (m ++ b) [] (by simp) (by simp [hm]) (by simp)

theorem clear_of_not_dangles (hm : ¬ m <:+: t) (hd : ¬ Dangles m t) : Clear m t := by
  rintro a b rest rfl hb hp
  rcases List.prefix_or_prefix_of_prefix hp (List.prefix_append b rest) with hmb | hbm
  · exact hm (hmb.isInfix.trans (List.suffix_append a b).isInfix)
  · exact hd ⟨b, (List.mem_inits b m).mpr hbm, hb, List.suffix_append a b⟩

theorem not_dangles_of_not_mem {c : Char} (hc : c ∉ t) : ¬ Dangles (c :: m) t := by
  rintro ⟨p, hp, hne, hsuffix⟩
  obtain ⟨d, p, rfl⟩ := List.exists_cons_of_ne_nil hne
  obtain rfl : d = c := (List.cons_prefix_cons.mp ((List.mem_inits _ _).mp hp)).1
  exact hc (hsuffix.subset (by simp))

theorem clear_of_not_mem {c : Char} (hc : c ∉ t) : Clear (c :: m) t := by
  rintro a b rest rfl hb hp
  obtain ⟨d, b, rfl⟩ := List.exists_cons_of_ne_nil hb
  obtain rfl : c = d := (List.cons_prefix_cons.mp hp).1
  simp at hc

theorem clear_append (hx : Clear m x) (hy : Clear m y) : Clear m (x ++ y) := by
  intro a b rest hab hb
  rcases List.append_eq_append_iff.mp hab with ⟨a', rfl, hy'⟩ | ⟨b', rfl, rfl⟩
  · exact hy a' b rest hy' hb
  · cases b' with
    | nil => exact hy [] y rest rfl (by simpa using hb)
    | cons c b' =>
      rw [List.append_assoc]
      exact hx a (c :: b') (y ++ rest) rfl (by simp)

/-- Texts can be joined where the first one ends in no beginning of `m`, or the second one begins
with another character. -/
theorem clear_join (hm : ¬ m <:+: x) (hy : Clear m y) (h : ¬ Dangles m x ∨ Parted m y) :
    Clear m (x ++ y) := by
  rcases h with hd | ⟨c, hc, hmem⟩
  · exact clear_append (clear_of_not_dangles hm hd) hy
  · obtain ⟨y, rfl⟩ := List.head?_eq_some_iff.mp hc
    intro a b rest hab hb hp
    rcases List.append_eq_append_iff.mp hab with ⟨a', rfl, hy'⟩ | ⟨b', rfl, rfl⟩
    · exact hy a' b rest hy' hb hp
    · -- `m` begins in `x`, so it ends there or reaches to `c`
      rw [List.append_assoc] at hp
      rcases List.prefix_or_prefix_of_prefix hp (List.prefix_append b' _) with hmb | ⟨z, rfl⟩
      · exact hm (hmb.isInfix.trans (List.suffix_append a b').isInfix)
      · rw [List.prefix_append_right_inj] at hp
        cases z with
        | nil => exact hm ⟨a, [], by simp⟩
        | cons d z =>
          obtain rfl : d = c := (List.cons_prefix_cons.mp hp).1
          simp at hmem

theorem clear_flatMap {α : Type} {f : α → Text} {xs : List α} (h : ∀ a ∈ xs, Clear m (f a)) :
    Clear m (xs.flatMap f) := by
  induction xs with
  | nil => exact fun a b rest hab hb => absurd (List.append_eq_nil_iff.mp hab.symm).2 hb
  | cons a xs ih =>
    rw [List.flatMap_cons]
    exact clear_append (h a (by simp)) (ih fun b hb => h b (by simp [hb]))

theorem replaceFirst_append_of_clear (hx : Clear m x) :
    replaceFirst m new (x ++ t) = x ++ replaceFirst m new t :=
  replaceFirst_append_of_apart new fun a b hab hb => hx a b t hab hb

theorem replaceFirst_of_clear (hm : m ≠ []) (hx : Clear m x) : replaceFirst m new x = x := by
  have happend := @replaceFirst_append_of_clear m [] x new hx
  simpa [replaceFirst, hm] using happend

end TripleSlash.Text
