import TripleSlash.Proofs.Document.Written

/-! The edits of a pass are such that they can always be applied: one for a line at most, in the
order of the lines, and each at a line of the document. -/
namespace TripleSlash

namespace Scan

variable {o : Options} {s : State} {i k n : Nat} {line text : Text} {lines : List Text}

theorem delete_mem_deletion :
    .delete n ∈ deletion o i line ↔ n = i ∧ o.mode = .regenerate ∧ isComment line = true := by
  unfold deletion
  split <;> simp_all

theorem insert_not_mem_deletion : .insert n text ∉ deletion o i line := by
  unfold deletion
  split <;> simp

/-- What a pass takes out are comments, all of them or none. -/
theorem delete_mem_placed : .delete (i + k) ∈ placed o s i lines ↔
    o.mode = .regenerate ∧ ∃ line, lines[k]? = some line ∧ isComment line = true := by
  induction lines generalizing s i k with
  | nil => simp [placed]
  | cons line lines ih =>
    have hinsert : ∀ n, Edit.delete n ∉
        (above o s i (line :: lines)).toList.map (Edit.insert i) := by simp
    cases k with
    | zero =>
      have hlater : Edit.delete i ∉ placed o (step o s i line).state (i + 1) lines := by
        intro h
        have hline := (placed_bounds h).1
        simp only [Edit.line] at hline
        omega
      simp [placed, delete_mem_deletion, hlater]
    | succ k =>
      have hrest := @ih (step o s i line).state (i + 1) k
      rw [Nat.add_right_comm, Nat.add_assoc] at hrest
      simp [placed, delete_mem_deletion, hrest]

/-- Comments do not go above comments. -/
theorem insert_mem_placed (h : .insert (i + k) text ∈ placed o s i lines) :
    ∃ line, lines[k]? = some line ∧ isComment line = false := by
  induction lines generalizing s i k with
  | nil => simp [placed] at h
  | cons line lines ih =>
    simp only [placed, List.mem_append, insert_not_mem_deletion, or_false] at h
    cases k with
    | zero =>
      refine ⟨line, rfl, ?_⟩
      cases hc : isComment line with
      | false => rfl
      | true =>
        rcases h with h | h
        · simp [above_of_comment hc] at h
        · have hline := (placed_bounds h).1
          simp only [Edit.line] at hline
          omega
    | succ k =>
      rcases h with h | h
      · simp at h
      · exact ih (s := (step o s i line).state) (i := i + 1) (k := k)
          (by rwa [Nat.add_right_comm, Nat.add_assoc])

/-- Edits in the order of their lines, no two of them at one line, that take out the comments when
all comments are written anew and leave them alone otherwise. -/
structure Orderly (o : Options) (lines : List Text) (es : List Edit) : Prop where
  increasing : es.Pairwise (·.line < ·.line)
  inside : ∀ e ∈ es, e.line < lines.length
  deletes : ∀ n, .delete n ∈ es ↔
    o.mode = .regenerate ∧ ∃ line, lines[n]? = some line ∧ isComment line = true
  inserts : ∀ n text, .insert n text ∈ es →
    ∃ line, lines[n]? = some line ∧ isComment line = false

theorem orderly_edits (o : Options) (lines : List Text) : Orderly o lines (edits o lines) := by
  rw [edits_eq_placed]
  refine ⟨placed_sorted, ?_, ?_, ?_⟩
  · intro e he
    simpa using (placed_bounds he).2
  · intro n
    have hplaced := @delete_mem_placed o .neutral 0 n lines
    rwa [Nat.zero_add] at hplaced
  · intro n text h
    exact insert_mem_placed (i := 0) (by simpa using h)

end Scan

namespace Line

variable {doc : List Line} {start : Nat} {es : List Edit}

theorem applyFrom_of_increasing (hs : es.Pairwise (·.line < ·.line))
    (hstart : ∀ e ∈ es, start ≤ e.line) (hin : ∀ e ∈ es, e.line < doc.length) :
    ∃ t, applyFrom doc start es = .ok t := by
  induction es generalizing start with
  | nil => exact ⟨_, rfl⟩
  | cons e es ih =>
    obtain ⟨hlater, hsorted⟩ := List.pairwise_cons.mp hs
    have hin' : ∀ e' ∈ es, e'.line < doc.length := fun e' he' => hin e' (by simp [he'])
    have hrange : ¬ doc.length ≤ e.line := Nat.not_le.mpr (hin e (by simp))
    have horder : ¬ e.line < start := Nat.not_lt.mpr (hstart e (by simp))
    unfold applyFrom
    simp only [hrange, horder, if_false]
    cases e with
    | insert n text =>
      obtain ⟨t, ht⟩ := @ih n hsorted (fun e' he' => Nat.le_of_lt (hlater e' he')) hin'
      exact ⟨_, by simp only [ht]; rfl⟩
    | delete n =>
      obtain ⟨t, ht⟩ := @ih (n + 1) hsorted (fun e' he' => hlater e' he') hin'
      exact ⟨_, by simp only [ht]; rfl⟩

/-- Orderly edits of the lines of a document are applied to it. -/
theorem apply_of_orderly {o : Scan.Options} (h : Scan.Orderly o (doc.map text) es) :
    ∃ t, apply doc es = .ok t := by
  rw [apply_of_sorted h.increasing]
  exact applyFrom_of_increasing h.increasing (by simp) (by simpa using h.inside)

end Line

/-- The edits of a pass are orderly, so every document takes them and no pass fails. -/
theorem edits_apply :
    (∀ o lines, Scan.Orderly o lines (Scan.edits o lines)) ∧
      (∀ o doc, ∃ t, Line.apply doc (Scan.edits o (doc.map Line.text)) = .ok t) ∧
      ∀ (s : Settings) mode source, ∃ t, (s.pass mode source).text = .ok t :=
  ⟨Scan.orderly_edits,
    fun o doc => Line.apply_of_orderly (Scan.orderly_edits o (doc.map Line.text)),
    fun _ _ _ => Line.apply_of_orderly (Scan.orderly_edits _ _)⟩

end TripleSlash
