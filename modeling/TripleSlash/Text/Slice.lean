import TripleSlash.Text.Basic

/-! Texts cut at bytes. There is no cut inside a character. -/
namespace TripleSlash.Text

/-- The text in front of a byte and the text from it on. -/
def splitAtByte? : Nat → Text → Option (Text × Text)
  | 0, t => some ([], t)
  | _ + 1, [] => none
  | n + 1, c :: t =>
    if c.utf8Size ≤ n + 1 then
      (splitAtByte? (n + 1 - c.utf8Size) t).map fun (x, y) => (c :: x, y)
    else none

/-- The text between two bytes. -/
def slice? (t : Text) (a b : Nat) : Option Text :=
  if a ≤ b then (splitAtByte? a t).bind fun (_, rest) => (splitAtByte? (b - a) rest).map (·.1)
  else none

/-- How many bytes stand in front of the first occurrence of a character. -/
def byteIdxOf? (c : Char) : Text → Option Nat
  | [] => none
  | d :: t => if d = c then some 0 else (byteIdxOf? c t).map (d.utf8Size + ·)

variable {c : Char} {t x y z : Text} {a b n : Nat}

theorem byteSize_pos (h : t ≠ []) : 0 < byteSize t := by
  cases t with
  | nil => exact absurd rfl h
  | cons c t => exact Nat.add_pos_left c.utf8Size_pos _

theorem splitAtByte?_append (x y : Text) : splitAtByte? (byteSize x) (x ++ y) = some (x, y) := by
  induction x with
  | nil => cases y <;> rfl
  | cons c x ih =>
    obtain ⟨n, hn⟩ : ∃ n, byteSize (c :: x) = n + 1 :=
      Nat.exists_eq_add_one.mpr (byteSize_pos (by simp))
    have hrest : n + 1 - c.utf8Size = byteSize x := by
      rw [← hn, byteSize, Nat.add_sub_cancel_left]
    have hle : c.utf8Size ≤ n + 1 := hn ▸ Nat.le_add_right _ _
    rw [hn, List.cons_append, splitAtByte?, if_pos hle, hrest, ih]
    rfl

theorem splitAtByte?_eq_some_iff :
    splitAtByte? n t = some (x, y) ↔ t = x ++ y ∧ byteSize x = n := by
  constructor
  · intro h
    fun_induction splitAtByte? n t generalizing x with
    | case1 t =>
      obtain ⟨rfl, rfl⟩ := Prod.mk.inj (Option.some.inj h)
      exact ⟨rfl, rfl⟩
    | case2 n => simp at h
    | case3 n c t hc ih =>
      obtain ⟨⟨x', y'⟩, hsplit, he⟩ := Option.map_eq_some_iff.mp h
      obtain ⟨rfl, rfl⟩ := Prod.mk.inj he
      obtain ⟨rfl, hx⟩ := ih hsplit
      exact ⟨rfl, by simp only [byteSize]; omega⟩
    | case4 n c t hc => simp at h
  · rintro ⟨rfl, rfl⟩
    exact splitAtByte?_append x y

theorem slice?_eq_some_iff : slice? t a b = some y ↔
    ∃ x z, t = x ++ (y ++ z) ∧ byteSize x = a ∧ byteSize x + byteSize y = b := by
  constructor
  · intro h
    unfold slice? at h
    split at h
    next hle =>
      obtain ⟨⟨x, rest⟩, hx, h⟩ := Option.bind_eq_some_iff.mp h
      obtain ⟨⟨y, z⟩, hy, rfl⟩ := Option.map_eq_some_iff.mp h
      obtain ⟨rfl, rfl⟩ := splitAtByte?_eq_some_iff.mp hx
      obtain ⟨rfl, hsize⟩ := splitAtByte?_eq_some_iff.mp hy
      exact ⟨x, z, rfl, rfl, hsize ▸ Nat.add_sub_cancel' hle⟩
    next => simp at h
  · rintro ⟨x, z, rfl, rfl, rfl⟩
    simp [slice?, splitAtByte?_append]

theorem byteIdxOf?_append (h : c ∉ x) (y : Text) :
    byteIdxOf? c (x ++ c :: y) = some (byteSize x) := by
  induction x with
  | nil => simp [byteIdxOf?]
  | cons d x ih =>
    simp only [List.mem_cons, not_or] at h
    simp [byteIdxOf?, Ne.symm h.1, ih h.2, byteSize]

theorem byteIdxOf?_eq_none (h : c ∉ t) : byteIdxOf? c t = none := by
  induction t with
  | nil => rfl
  | cons d t ih =>
    simp only [List.mem_cons, not_or] at h
    simp [byteIdxOf?, Ne.symm h.1, ih h.2]

/-- The text in front of a byte is determined by the byte. -/
theorem append_inj_of_byteSize {x' y' : Text} (h : x ++ y = x' ++ y')
    (hsize : byteSize x = byteSize x') : x = x' ∧ y = y' := by
  have hsplit := splitAtByte?_append x y
  rw [h, hsize, splitAtByte?_append] at hsplit
  obtain ⟨rfl, rfl⟩ := Prod.mk.inj (Option.some.inj hsplit)
  exact ⟨rfl, rfl⟩

end TripleSlash.Text
