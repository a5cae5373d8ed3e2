import Mathlib.Data.List.Basic
import TripleSlash.Proofs.Text.Readings

/-! Readings end in front of a character that their pattern cannot read. What stands behind such a
character has no influence on them. -/
namespace TripleSlash.Pattern

variable {ι : Type} {p q : Pattern ι} {t s : Text} {m : Reading ι} {c : Char}

/-- Whether every reading takes at least one character. -/
def moves : Pattern ι → Bool
  | done => false
  | one _ => true
  | run _ => false
  | seq p q => p.moves || q.moves
  | alt p q => p.moves && q.moves
  | star _ => false
  | commit p => p.moves
  | part _ p => p.moves

/-- Whether what is read again and again takes characters each time. -/
def steady : Pattern ι → Bool
  | done => true
  | one _ => true
  | run _ => true
  | seq p q => p.steady && q.steady
  | alt p q => p.steady && q.steady
  | star p => p.moves && p.steady
  | commit p => p.steady
  | part _ p => p.steady

/-- The reading with more text behind it. -/
def Reading.onto (s : Text) (m : Reading ι) : Reading ι := { m with rest := m.rest ++ s }

theorem length_rest_le (h : m ∈ p.readings t) : m.rest.length ≤ t.length := by
  obtain ⟨x, rfl, -⟩ := takes_of_mem h
  simp

theorem length_rest_lt (hp : p.moves = true) (h : m ∈ p.readings t) :
    m.rest.length < t.length := by
  induction p generalizing t m with
  | done => simp [moves] at hp
  | one accepts =>
    cases t with
    | nil => simp [readings] at h
    | cons c t =>
      obtain ⟨-, rfl⟩ : accepts c = true ∧ m = ⟨[], t⟩ := by simpa [readings] using h
      simp
  | run accepts => simp [moves] at hp
  | seq p q ihp ihq =>
    simp only [readings, List.mem_flatMap, List.mem_map] at h
    obtain ⟨m₁, h₁, m₂, h₂, rfl⟩ := h
    simp only [moves, Bool.or_eq_true] at hp
    change m₂.rest.length < t.length
    rcases hp with hp | hq
    · exact Nat.lt_of_le_of_lt (length_rest_le h₂) (ihp hp h₁)
    · exact Nat.lt_of_lt_of_le (ihq hq h₂) (length_rest_le h₁)
  | alt p q ihp ihq =>
    simp only [moves, Bool.and_eq_true] at hp
    rcases List.mem_append.mp h with h | h
    · exact ihp hp.1 h
    · exact ihq hp.2 h
  | star p ih => simp [moves] at hp
  | commit p ih => exact ih hp (List.mem_of_mem_take h)
  | part label p ih =>
    simp only [readings, List.mem_map] at h
    obtain ⟨m₁, h₁, rfl⟩ := h
    change m₁.rest.length < t.length
    exact ih hp h₁

/-- Repetitions that take characters do not count on more of them than there are. -/
theorem repeated_append {body : Text → List (Reading ι)}
    (hbody : ∀ t, body (t ++ s) = (body t).map (·.onto s))
    (hmoves : ∀ t, ∀ m ∈ body t, m.rest.length < t.length) {n k : Nat} (hn : t.length ≤ n)
    (hk : t.length ≤ k) : repeated body n (t ++ s) = (repeated body k t).map (·.onto s) := by
  have hempty : body [] = [] := by
    apply List.eq_nil_iff_forall_not_mem.mpr
    intro m hm
    simpa using hmoves [] m hm
  induction n generalizing t k with
  | zero =>
    obtain rfl : t = [] := by simpa using hn
    cases k <;> simp [repeated, hempty, Reading.onto]
  | succ n ih =>
    cases k with
    | zero =>
      obtain rfl : t = [] := by simpa using hk
      have hs : body s = [] := by simpa [hempty] using hbody []
      simp [repeated, hs, Reading.onto]
    | succ k =>
      have hrest : ∀ m ∈ body t, repeated body n (m.rest ++ s) =
          (repeated body k m.rest).map (·.onto s) := by
        intro m hm
        have hlt := hmoves t m hm
        exact ih (by omega) (by omega)
      simp only [repeated, hbody, List.flatMap_map, List.map_append, List.map_flatMap, List.map_map,
        List.map_cons, List.map_nil]
      refine congrArg (· ++ _) (List.flatMap_congr fun m hm => ?_)
      change (repeated body n (m.rest ++ s)).map (·.after m.parts) = _
      rw [hrest m hm, List.map_map]
      rfl

/-- A pattern reads in front of a character that it cannot read as if the text ended there. -/
theorem readings_append (hp : p.steady = true) (hc : p.reads c = false) :
    p.readings (t ++ c :: s) = (p.readings t).map (·.onto (c :: s)) := by
  induction p generalizing t with
  | done => rfl
  | one accepts =>
    cases t with
    | nil =>
      have hc : accepts c = false := hc
      simp [readings, hc]
    | cons d t => cases hd : accepts d <;> simp [readings, hd, Reading.onto]
  | run accepts =>
    have hc : accepts c = false := hc
    have hdrop : (t ++ c :: s).dropWhile accepts = t.dropWhile accepts ++ c :: s := by
      induction t with
      | nil => simp [hc]
      | cons d t ih => cases hd : accepts d <;> simp [hd, ih]
    simp [readings, hdrop, Reading.onto]
  | seq p q ihp ihq =>
    simp only [steady, Bool.and_eq_true] at hp
    simp only [reads, Bool.or_eq_false_iff] at hc
    simp only [readings, ihp hp.1 hc.1, List.flatMap_map, List.map_flatMap]
    refine List.flatMap_congr fun m _ => ?_
    change (q.readings (m.rest ++ c :: s)).map (·.after m.parts) = _
    rw [ihq hp.2 hc.2, List.map_map, List.map_map]
    rfl
  | alt p q ihp ihq =>
    simp only [steady, Bool.and_eq_true] at hp
    simp only [reads, Bool.or_eq_false_iff] at hc
    simp [readings, ihp hp.1 hc.1, ihq hp.2 hc.2]
  | star p ih =>
    simp only [steady, Bool.and_eq_true] at hp
    exact repeated_append (fun t => ih hp.2 hc) (fun t m hm => length_rest_lt hp.1 hm)
      (by simp) (Nat.le_refl _)
  | commit p ih => simp [readings, ih hp hc, List.map_take]
  | part label p ih =>
    simp only [readings, ih hp hc, List.map_map]
    refine List.map_congr_left fun m hm => ?_
    have hle := length_rest_le hm
    have htake : (t ++ c :: s).take ((t ++ c :: s).length - (m.rest ++ c :: s).length) =
        t.take (t.length - m.rest.length) := by
      rw [List.take_append_of_le_length (by simp)]
      congr 1
      simp
      omega
    simp [Reading.onto, ← htake]

/-- A sequence is read stretch by stretch. -/
theorem readings_all_append (ps qs : List (Pattern ι)) (t : Text) :
    (all (ps ++ qs)).readings t = ((all ps).readings t).flatMap fun m =>
      ((all qs).readings m.rest).map (·.after m.parts) := by
  induction ps generalizing t with
  | nil =>
    have hnone : ∀ m : Reading ι, m.after [] = m := fun _ => rfl
    simp [all, readings, hnone]
  | cons p ps ih =>
    have hcons : ∀ rs : List (Pattern ι), all (p :: rs) = seq p (all rs) := fun _ => rfl
    rw [List.cons_append, hcons, hcons]
    simp only [readings, ih, List.flatMap_assoc, List.map_flatMap, List.flatMap_map, List.map_map]
    refine List.flatMap_congr fun m _ => List.flatMap_congr fun m' _ => ?_
    refine List.map_congr_left fun m'' _ => ?_
    simp [Reading.after]

/-- The preferred reading of a sequence in front of a given character. -/
theorem read?_stop {ps : List (Pattern ι)} (hp : (all ps).steady = true)
    (hc : (all ps).reads c = false) (ht : c ∉ t) :
    (all (ps ++ [text [c]])).read? (t ++ c :: s) =
      (((all ps).readings t).find? (·.rest.isEmpty)).map fun m => ⟨m.parts, s⟩ := by
  have hlast : ∀ x : Text, c ∉ x → (all [text [c]] : Pattern ι).readings (x ++ c :: s) =
      if x.isEmpty then [⟨[], s⟩] else [] := by
    intro x hx
    have hone : (all [text [c]] : Pattern ι) = seq (text [c]) done := rfl
    cases x with
    | nil => simp [hone, readings, readings_text, Reading.after]
    | cons d x =>
      have hd : ¬ [c] <+: d :: (x ++ c :: s) := by
        simp only [List.mem_cons, not_or] at hx
        simpa using hx.1
      simp [hone, readings, readings_text, hd]
  have hrest : ∀ m ∈ (all ps).readings t, c ∉ m.rest := by
    intro m hm hmem
    obtain ⟨x, rfl, -⟩ := takes_of_mem hm
    exact ht (List.mem_append_right x hmem)
  rw [read?, readings_all_append, readings_append hp hc, List.flatMap_map]
  generalize (all ps).readings t = ms at hrest ⊢
  induction ms with
  | nil => rfl
  | cons m ms ih =>
    have hm := hlast m.rest (hrest m (by simp))
    have hms := ih fun m' hm' => hrest m' (by simp [hm'])
    rw [List.flatMap_cons, List.find?_cons]
    change (((all [text [c]]).readings (m.rest ++ c :: s)).map (·.after m.parts) ++ _).head? = _
    rw [hm]
    cases m.rest.isEmpty with
    | true => simp [Reading.after]
    | false => simpa using hms

/-- In front of the character that ends a sequence stand no others than the sequence may read. -/
theorem mem_readings_stop {ps : List (Pattern ι)} (h : m ∈ (all (ps ++ [text [c]])).readings t) :
    ∃ x, t = x ++ c :: m.rest ∧ ∀ d, (all ps).reads d = false → d ∉ x := by
  obtain ⟨m₁, h₁, m₂, h₂, hrest⟩ := mem_readings_all_append h
  obtain ⟨x, hx, hreads, -⟩ := takes_of_mem h₁
  refine ⟨x, ?_, fun d hd hmem => by simp [hreads d hmem] at hd⟩
  simp only [all, List.foldr_cons, List.foldr_nil, readings, readings_text] at h₂
  split at h₂
  next hprefix =>
    obtain ⟨rest, hr⟩ := hprefix
    obtain rfl : m₂ = ⟨[], rest⟩ := by simpa [← hr, Reading.after] using h₂
    rw [hx, ← hr, ← hrest]
    rfl
  next => simp at h₂

/-- A sequence that ends in a character which it does not have elsewhere is read whatever stands
behind it. -/
theorem read?_append {ps : List (Pattern ι)} (hp : (all ps).steady = true)
    (hc : (all ps).reads c = false) (h : (all (ps ++ [text [c]])).read? t = some m) (s : Text) :
    (all (ps ++ [text [c]])).read? (t ++ s) = some (m.onto s) := by
  obtain ⟨x, rfl, hx⟩ := mem_readings_stop (mem_readings_of_read? h)
  rw [read?_stop hp hc (hx c hc), Option.map_eq_some_iff] at h
  obtain ⟨m', hm', hm⟩ := h
  rw [List.append_assoc, List.cons_append, read?_stop hp hc (hx c hc), hm', ← hm]
  rfl

end TripleSlash.Pattern
