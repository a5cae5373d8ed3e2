import TripleSlash.Document.Revision

/-! Edits whose texts are written in another way, applied to a document whose lines are written in
that way. -/
namespace TripleSlash

/-- The same edit with another text. -/
def Edit.mapText (f : Text → Text) : Edit → Edit
  | insert n t => insert n (f t)
  | delete n => delete n

@[simp] theorem Edit.line_mapText (f : Text → Text) (e : Edit) : (e.mapText f).line = e.line := by
  cases e <;> rfl

namespace Line

variable {doc : List Line} {es : List Edit} {f : Text → Text} {g : Line → Line} {start : Nat}

/-- Written in another way, a document is put together of the same pieces. -/
structure Piecewise (f : Text → Text) (g : Line → Line) (doc : List Line) : Prop where
  back : ∀ n, join ((doc.drop n).map g) = f (join (doc.drop n))
  front : ∀ m n t, n < doc.length →
    f (join ((doc.take n).drop m) ++ t) = join (((doc.take n).drop m).map g) ++ f t

theorem applyFrom_mapText (h : Piecewise f g doc)
    (hes : ∀ n x, .insert n x ∈ es → ∀ t, f (x ++ t) = f x ++ f t) :
    applyFrom (doc.map g) start (es.map (Edit.mapText f)) = (applyFrom doc start es).map f := by
  induction es generalizing start with
  | nil =>
    simp only [List.map_nil, applyFrom, ← List.map_drop, Except.map]
    rw [h.back]
  | cons e es ih =>
    have hrest : ∀ n, applyFrom (doc.map g) n (es.map (Edit.mapText f)) =
        (applyFrom doc n es).map f :=
      fun n => ih fun n x hx => hes n x (by simp [hx])
    unfold applyFrom
    rw [List.map_cons]
    simp only [List.length_map, Edit.line_mapText]
    split
    · rfl
    next hin =>
      have hlt : e.line < doc.length := Nat.lt_of_not_le hin
      split
      · rfl
      · cases e with
        | insert n x =>
          have hx := hes n x (by simp)
          simp only [Edit.mapText, hrest, ← List.map_take, ← List.map_drop]
          cases applyFrom doc n es with
          | error e => rfl
          | ok t =>
            have htext : f (join ((doc.take n).drop start) ++ x ++ t) =
                join (((doc.take n).drop start).map g) ++ f x ++ f t := by
              rw [List.append_assoc, h.front start n _ hlt, hx, List.append_assoc]
            exact congrArg Except.ok htext.symm
        | delete n =>
          simp only [Edit.mapText, hrest, ← List.map_take, ← List.map_drop]
          cases applyFrom doc (n + 1) es with
          | error e => rfl
          | ok t => exact congrArg Except.ok (h.front start n t hlt).symm

/-- What edits make of a document is written in another way with it. -/
theorem apply_mapText (h : Piecewise f g doc)
    (hes : ∀ n x, .insert n x ∈ es → ∀ t, f (x ++ t) = f x ++ f t) :
    apply (doc.map g) (es.map (Edit.mapText f)) = (apply doc es).map f := by
  rw [apply, ← List.map_mergeSort (r := (·.line ≤ ·.line)), applyFrom_mapText h, apply]
  · intro n x hx
    exact hes n x (List.mem_mergeSort.mp hx)
  · simp

end Line
end TripleSlash
