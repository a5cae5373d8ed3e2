import Mathlib.Data.List.Infix
import TripleSlash.Proofs.Parameter.Pieces

/-! Texts that close the brackets which they open. As long as no bracket is closed that was not
opened, the depth behind a text is the number of brackets that are open there. -/
namespace TripleSlash.Brackets

variable {t x y w : Text} {c s : Char} {sep : Char → Bool} {d : Nat}

/-- How many brackets a text opens. -/
def opened (t : Text) : Nat := t.countP (· ∈ opening)

/-- How many brackets a text closes. -/
def closed (t : Text) : Nat := t.countP (· ∈ closing)

/-- A text that closes no bracket before it opens one, and in the end closes them all. -/
structure Balanced (t : Text) : Prop where
  never : ∀ x, x <+: t → closed x ≤ opened x
  settled : closed t = opened t

instance : Decidable (Balanced t) :=
  decidable_of_iff ((∀ x ∈ t.inits, closed x ≤ opened x) ∧ closed t = opened t)
    ⟨fun h => ⟨fun x hx => h.1 x ((List.mem_inits x t).mpr hx), h.2⟩,
      fun h => ⟨fun x hx => h.never x ((List.mem_inits x t).mp hx), h.settled⟩⟩

/-- No character of a class stands outside of the brackets. -/
def Whole (sep : Char → Bool) (t : Text) : Prop :=
  ∀ x c y, t = x ++ c :: y → closed x = opened x → sep c = false

theorem whole_iff : Whole sep t ↔ ∀ i : Fin t.length,
    closed (t.take i) = opened (t.take i) → sep t[i] = false := by
  constructor
  · intro h i
    exact h (t.take i) t[i] (t.drop (i + 1)) (by simp)
  · rintro h x c y rfl hx
    simpa [hx] using h ⟨x.length, by simp⟩

instance : Decidable (Whole sep t) := decidable_of_iff _ whole_iff.symm

@[simp] theorem opened_append (x y : Text) : opened (x ++ y) = opened x + opened y :=
  List.countP_append

@[simp] theorem closed_append (x y : Text) : closed (x ++ y) = closed x + closed y :=
  List.countP_append

theorem step_add (h : closed [c] ≤ d + opened [c]) : step d c + closed [c] = d + opened [c] := by
  have hapart : ∀ c ∈ opening, c ∉ closing := by simp [opening, closing]
  by_cases ho : c ∈ opening
  · simp [step, opened, closed, ho, hapart c ho]
  · by_cases hc : c ∈ closing
    · simp [step, opened, closed, ho, hc] at h ⊢
      omega
    · simp [step, opened, closed, ho, hc]

/-- The depth behind a text counts the brackets that are open there. -/
theorem depthAfter_add (h : ∀ y, y <+: x → closed y ≤ d + opened y) :
    depthAfter d x + closed x = d + opened x := by
  induction x generalizing d with
  | nil => rfl
  | cons c x ih =>
    have hstep := step_add (h [c] ⟨x, rfl⟩)
    have hrest : ∀ y, y <+: x → closed y ≤ step d c + opened y := by
      intro y hy
      have hcons := h ([c] ++ y) (List.prefix_cons_inj c |>.mpr hy)
      simp only [opened_append, closed_append] at hcons
      omega
    have hdepth : depthAfter (step d c) x + closed x = step d c + opened x := ih hrest
    have ho : opened (c :: x) = opened [c] + opened x := opened_append [c] x
    have hc : closed (c :: x) = closed [c] + closed x := closed_append [c] x
    change depthAfter (step d c) x + closed (c :: x) = d + opened (c :: x)
    omega

theorem Balanced.depthAfter_add (h : Balanced t) (hx : x <+: t) :
    depthAfter 0 x + closed x = opened x := by
  have hdepth : depthAfter 0 x + closed x = 0 + opened x :=
    Brackets.depthAfter_add fun y hy => by simpa using h.never y (hy.trans hx)
  simpa using hdepth

/-- Nothing separates a text where each of its separators stands in brackets. -/
theorem before_eq_self_iff : before sep d t = t ↔
    ∀ x c y, t = x ++ c :: y → cuts sep (depthAfter d x) c = false := by
  induction t generalizing d with
  | nil => simp [before]
  | cons c t ih =>
    unfold before
    split
    next hcut =>
      simp only [List.nil_eq, reduceCtorEq, false_iff]
      intro h
      have hfirst := h [] c t rfl
      simp [depthAfter, hcut] at hfirst
    next hcut =>
      rw [List.cons_inj_right, ih]
      constructor
      · intro h x c' y he
        cases x with
        | nil =>
          obtain ⟨rfl, -⟩ := List.cons.inj he
          simpa [depthAfter] using hcut
        | cons b x =>
          obtain ⟨rfl, hrest⟩ := List.cons.inj he
          exact h x c' y hrest
      · intro h x c' y he
        exact h (c :: x) c' y (by rw [he]; rfl)

/-- What nothing separates at a depth is not separated deeper in brackets. -/
theorem before_of_le {e : Nat} (hde : d ≤ e) (h : before sep d t = t) : before sep e t = t := by
  rw [before_eq_self_iff] at h ⊢
  intro x c y he
  have hcut := h x c y he
  have hmono := depthAfter_mono hde x
  by_contra hne
  simp only [cuts, Bool.not_eq_false, Bool.and_eq_true, beq_iff_eq] at hne
  have hzero : depthAfter d x = 0 := by omega
  simp [cuts, hzero, hne] at hcut

/-- A text that is not separated, with all its brackets closed. -/
structure Uncut (sep : Char → Bool) (t : Text) : Prop where
  whole : before sep 0 t = t
  closed : depthAfter 0 t = 0

theorem Balanced.uncut (h : Balanced t) (hw : Whole sep t) : Uncut sep t where
  whole := by
    rw [before_eq_self_iff]
    intro x c y he
    have hdepth := h.depthAfter_add ⟨c :: y, he.symm⟩
    by_contra hne
    simp only [cuts, Bool.not_eq_false, Bool.and_eq_true, beq_iff_eq] at hne
    have hsep := hw x c y he (by omega)
    simp [hsep] at hne
  closed := by
    have hdepth := h.depthAfter_add List.prefix_rfl
    have hsettled := h.settled
    omega

theorem Uncut.append (hx : Uncut sep x) (hy : Uncut sep y) : Uncut sep (x ++ y) where
  whole := by rw [(append_of_before hx.whole y).1, hx.closed, hy.whole]
  closed := by rw [depthAfter_append, hx.closed, hy.closed]

theorem Uncut.mono {sep' : Char → Bool} (hsep : ∀ c, sep c = true → sep' c = true)
    (h : Uncut sep' t) : Uncut sep t := ⟨before_of_imp hsep h.whole, h.closed⟩

theorem uncut_nil : Uncut sep [] := ⟨rfl, rfl⟩

theorem uncut_blank (hs : isBlank s = false) (hw : ∀ c ∈ w, isBlank c = true) :
    Uncut (· == s) w :=
  ⟨before_of_not_mem (not_mem_of_blank hs hw), depthAfter_blank hw⟩

end TripleSlash.Brackets
