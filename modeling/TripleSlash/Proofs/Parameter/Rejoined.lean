import TripleSlash.Proofs.Parameter.Broken

/-! Texts that are split and put together again. Nothing but separators outside of all brackets is
taken out, each of these is, and so a text can be split at one of them beforehand. -/
namespace TripleSlash

namespace Brackets

variable {t x y last piece : Text} {c s : Char} {sep : Char → Bool} {d : Nat}
  {marked : List (Text × Char)}

/-- Pieces with the separators that stood behind them. -/
def rejoin (marked : List (Text × Char)) : Text := marked.flatMap fun (piece, c) => piece ++ [c]

@[simp] theorem rejoin_cons (piece : Text) (c : Char) (marked : List (Text × Char)) :
    rejoin ((piece, c) :: marked) = piece ++ c :: rejoin marked := by
  simp [rejoin]

/-- In the pieces put together, `x` is followed by one of their separators. -/
def TakenOut (marked : List (Text × Char)) (x : Text) (c : Char) : Prop :=
  ∃ front piece back, marked = front ++ (piece, c) :: back ∧ x = rejoin front ++ piece

theorem not_takenOut_nil : ¬ TakenOut [] x c := by
  rintro ⟨front, piece, back, h, -⟩
  simp at h

theorem takenOut_cons : TakenOut ((piece, s) :: marked) x c ↔
    (x = piece ∧ c = s) ∨ ∃ x', x = piece ++ s :: x' ∧ TakenOut marked x' c := by
  constructor
  · rintro ⟨front, piece', back, hmarked, rfl⟩
    cases front with
    | nil =>
      obtain ⟨⟨rfl, rfl⟩, -⟩ : (piece = piece' ∧ s = c) ∧ _ := by simpa using hmarked
      exact .inl ⟨rfl, rfl⟩
    | cons first front =>
      obtain ⟨rfl, rfl⟩ : (piece, s) = first ∧ marked = front ++ (piece', c) :: back := by
        simpa using hmarked
      exact .inr ⟨rejoin front ++ piece', by simp, front, piece', back, rfl, rfl⟩
  · rintro (⟨rfl, rfl⟩ | ⟨x', rfl, front, piece', back, rfl, rfl⟩)
    · exact ⟨[], x, marked, rfl, rfl⟩
    · exact ⟨(piece, s) :: front, piece', back, rfl, by simp⟩

/-- What is taken out of a text that begins at a depth. -/
theorem exists_marked (sep : Char → Bool) (d : Nat) (t : Text) :
    ∃ marked last, split sep d t = marked.map Prod.fst ++ [last] ∧ rejoin marked ++ last = t ∧
      ∀ x c y, t = x ++ c :: y → (cuts sep (depthAfter d x) c = true ↔ TakenOut marked x c) := by
  induction t generalizing d with
  | nil => exact ⟨[], [], rfl, rfl, by simp⟩
  | cons b t ih =>
    have hdepth : ∀ x, depthAfter d (b :: x) = depthAfter (step d b) x := fun _ => rfl
    obtain ⟨marked, last, hsplit, hjoin, hcuts⟩ := ih (step d b)
    by_cases hb : cuts sep d b = true
    · rw [step_of_cuts hb] at hsplit hdepth hcuts
      refine ⟨([], b) :: marked, last, by simp [split, hb, hsplit], by simp [hjoin], ?_⟩
      intro x c y he
      rw [takenOut_cons]
      cases x with
      | nil =>
        obtain ⟨rfl, -⟩ := List.cons.inj he
        simpa [depthAfter] using hb
      | cons a x =>
        obtain ⟨rfl, hrest⟩ := List.cons.inj he
        simp [hdepth, hcuts x c y hrest]
    · have hfirst : ∀ c y, b :: t = c :: y → ¬ cuts sep (depthAfter d []) c = true := by
        intro c y he
        obtain ⟨rfl, -⟩ := List.cons.inj he
        exact hb
      cases marked with
      | nil =>
        refine ⟨[], b :: last, by simp [split, hb, hsplit], by simpa [rejoin] using hjoin, ?_⟩
        intro x c y he
        cases x with
        | nil => simp [hfirst c y he, not_takenOut_nil]
        | cons a x =>
          obtain ⟨rfl, hrest⟩ := List.cons.inj he
          simp [hdepth, hcuts x c y hrest, not_takenOut_nil]
      | cons m marked =>
        obtain ⟨piece, s⟩ := m
        refine ⟨(b :: piece, s) :: marked, last, by simp [split, hb, hsplit],
          by simpa using hjoin, ?_⟩
        intro x c y he
        rw [takenOut_cons]
        cases x with
        | nil => simp [hfirst c y he]
        | cons a x =>
          obtain ⟨rfl, hrest⟩ := List.cons.inj he
          simp [hdepth, hcuts x c y hrest, takenOut_cons]

theorem cuts_iff (h : ∀ c ∈ opening ++ closing, sep c = false) :
    cuts sep d c = true ↔ sep c = true ∧ d = 0 := by
  have hbracket : sep c = true → c ∉ opening ∧ c ∉ closing := by
    intro hc
    rw [← not_or, ← List.mem_append]
    intro hm
    simp [h c hm] at hc
  simp only [cuts, Bool.and_eq_true, decide_eq_true_eq, beq_iff_eq]
  constructor
  · rintro ⟨⟨⟨hd, -⟩, -⟩, hc⟩
    exact ⟨hc, hd⟩
  · rintro ⟨hc, hd⟩
    exact ⟨⟨⟨hd, (hbracket hc).1⟩, (hbracket hc).2⟩, hc⟩

/-- A text is its pieces with the separators behind them. Those are exactly its separators outside
of all brackets, and at each of them it can be split beforehand. -/
theorem split_rejoined (h : ∀ c ∈ opening ++ closing, sep c = false) :
    (∀ t, ∃ marked last, split sep 0 t = marked.map Prod.fst ++ [last] ∧
      rejoin marked ++ last = t ∧
      ∀ x c y, t = x ++ c :: y →
        (sep c = true ∧ depthAfter 0 x = 0 ↔ TakenOut marked x c)) ∧
    (∀ a c b, depthAfter 0 a = 0 → sep c = true →
      split sep 0 (a ++ c :: b) = split sep 0 a ++ split sep 0 b) ∧
    ∀ a b, depthAfter 0 a = 0 →
      Parameter.parseList (a ++ ',' :: b) = Parameter.parseList a ++ Parameter.parseList b := by
  refine ⟨fun t => ?_, fun a c b ha hc => ?_, fun a b ha => Parameter.parseList_comma ha b⟩
  · obtain ⟨marked, last, hsplit, hjoin, hcuts⟩ := exists_marked sep 0 t
    refine ⟨marked, last, hsplit, hjoin, fun x c y he => ?_⟩
    rw [← hcuts x c y he, cuts_iff h]
  · exact split_separator ha ((cuts_iff h).mpr ⟨hc, rfl⟩) b

/-- Closing brackets too many do not keep a comma from being one, of whichever kind they are, and in
brackets of any kind no comma is one. -/
theorem split_rejoined_stray : (∀ c ∈ opening ++ closing, (c == ',') = false) ∧
    depthAfter 0 "T>)] a".toList = 0 ∧
    split (· == ',') 0 "T>)] a,Map<int,(é,int)[,]> b".toList =
      ["T>)] a".toList, "Map<int,(é,int)[,]> b".toList] ∧
    Parameter.parseList "T>)] a,Map<int,(é,int)[,]> b".toList =
      [⟨"T>)]", "a"⟩, ⟨"Map<int,(é,int)[,]>", "b"⟩] := by
  have hsep : ∀ c ∈ opening ++ closing, (c == ',') = false := by simp [opening, closing]
  have hdepth : depthAfter 0 "T>)] a".toList = 0 := by decide
  have htext : "T>)] a,Map<int,(é,int)[,]> b".toList =
      "T>)] a".toList ++ ',' :: "Map<int,(é,int)[,]> b".toList := rfl
  obtain ⟨-, hsplit, hparse⟩ := split_rejoined hsep
  refine ⟨hsep, hdepth, ?_, ?_⟩
  · rw [htext, hsplit _ _ _ hdepth rfl]
    decide +kernel
  · rw [htext, hparse _ _ hdepth]
    decide +kernel

end Brackets
end TripleSlash
