import TripleSlash.Text.Pattern

/-! What the readings of a pattern have to do with the text that is read. -/
namespace TripleSlash.Pattern

variable {ι : Type} {p q : Pattern ι} {t : Text} {m : Reading ι} {r r' : Char → Bool}

/-- Whether a pattern may read a character somewhere. -/
def reads : Pattern ι → Char → Bool
  | done, _ => false
  | one accepts, c => accepts c
  | run accepts, c => accepts c
  | seq p q, c => p.reads c || q.reads c
  | alt p q, c => p.reads c || q.reads c
  | star p, c => p.reads c
  | commit p, c => p.reads c
  | part _ p, c => p.reads c

/-- A reading takes characters of a class off a text, and captures parts of what it takes. -/
def Takes (r : Char → Bool) (t : Text) (m : Reading ι) : Prop :=
  ∃ x, t = x ++ m.rest ∧ (∀ c ∈ x, r c = true) ∧ ∀ part ∈ m.parts, part.2 <:+: x

theorem takes_nothing : Takes r t (⟨[], t⟩ : Reading ι) := ⟨[], by simp⟩

theorem takes_after {m' : Reading ι} (hm : Takes r t m) (hm' : Takes r m.rest m') :
    Takes r t (m'.after m.parts) := by
  obtain ⟨x, rfl, hx, hp⟩ := hm
  obtain ⟨y, hy, hyc, hp'⟩ := hm'
  refine ⟨x ++ y, by simp [hy, Reading.after], ?_, ?_⟩
  · intro c hc
    exact (List.mem_append.mp hc).elim (hx c) (hyc c)
  · intro part h
    rcases List.mem_append.mp h with h | h
    · exact (hp part h).trans (List.prefix_append x y).isInfix
    · exact (hp' part h).trans (List.suffix_append x y).isInfix

theorem takes_mono (hm : Takes r t m) (hr : ∀ c, r c = true → r' c = true) : Takes r' t m := by
  obtain ⟨x, ht, hx, hp⟩ := hm
  exact ⟨x, ht, fun c hc => hr c (hx c hc), hp⟩

theorem takes_repeated {body : Text → List (Reading ι)} (hb : ∀ t, ∀ m ∈ body t, Takes r t m)
    (n : Nat) (hm : m ∈ repeated body n t) : Takes r t m := by
  induction n generalizing t m with
  | zero =>
    obtain rfl : m = ⟨[], t⟩ := by simpa [repeated] using hm
    exact takes_nothing
  | succ n ih =>
    simp only [repeated, List.mem_append, List.mem_flatMap, List.mem_map, List.mem_singleton] at hm
    rcases hm with ⟨m₁, h₁, m₂, h₂, rfl⟩ | rfl
    · exact takes_after (hb t m₁ h₁) (ih h₂)
    · exact takes_nothing

/-- A pattern takes no other characters than those it may read. -/
theorem takes_of_mem (h : m ∈ p.readings t) : Takes p.reads t m := by
  induction p generalizing t m with
  | done =>
    obtain rfl : m = ⟨[], t⟩ := by simpa [readings] using h
    exact takes_nothing
  | one accepts =>
    cases t with
    | nil => simp [readings] at h
    | cons c t =>
      obtain ⟨hc, rfl⟩ : accepts c = true ∧ m = ⟨[], t⟩ := by simpa [readings] using h
      exact ⟨[c], rfl, by simpa [reads] using hc, by simp⟩
  | run accepts =>
    obtain rfl : m = ⟨[], t.dropWhile accepts⟩ := by simpa [readings] using h
    exact ⟨t.takeWhile accepts, by simp, List.all_eq_true.mp List.all_takeWhile, by simp⟩
  | seq p q ihp ihq =>
    simp only [readings, List.mem_flatMap, List.mem_map] at h
    obtain ⟨m₁, h₁, m₂, h₂, rfl⟩ := h
    exact takes_after (takes_mono (ihp h₁) fun c hc => by simp [reads, hc])
      (takes_mono (ihq h₂) fun c hc => by simp [reads, hc])
  | alt p q ihp ihq =>
    rcases List.mem_append.mp h with h | h
    · exact takes_mono (ihp h) fun c hc => by simp [reads, hc]
    · exact takes_mono (ihq h) fun c hc => by simp [reads, hc]
  | star p ih => exact takes_repeated (fun t m hm => ih hm) t.length h
  | commit p ih => exact ih (List.mem_of_mem_take h)
  | part label p ih =>
    simp only [readings, List.mem_map] at h
    obtain ⟨m₁, h₁, rfl⟩ := h
    obtain ⟨x, rfl, hx, hp⟩ := ih h₁
    refine ⟨x, rfl, hx, ?_⟩
    intro part hpart
    rcases List.mem_cons.mp hpart with rfl | hpart
    · simp
    · exact hp part hpart

/-- A given text is read in one way, if at all. -/
theorem readings_text (x t : Text) :
    (text x : Pattern ι).readings t = if x <+: t then [⟨[], t.drop x.length⟩] else [] := by
  induction x generalizing t with
  | nil => simp [text, readings]
  | cons c x ih =>
    have hseq : (text (c :: x) : Pattern ι) = .seq (.one (· == c)) (text x) := rfl
    rw [hseq]
    cases t with
    | nil => simp [readings]
    | cons d t =>
      by_cases hd : d = c
      · subst hd
        by_cases hx : x <+: t <;> simp [readings, Reading.after, ih, hx]
      · simp [readings, hd, Ne.symm hd]

theorem mem_readings_of_read? (h : p.read? t = some m) : m ∈ p.readings t :=
  List.mem_of_mem_head? h

/-- What is captured stands in the text. -/
theorem text_isInfix [BEq ι] [LawfulBEq ι] (h : m ∈ p.readings t) (label : ι) :
    m.text label <:+: t := by
  obtain ⟨x, rfl, -, hp⟩ := takes_of_mem h
  unfold Reading.text
  cases hl : m.parts.lookup label with
  | none => simp
  | some y =>
    obtain ⟨l₁, l₂, he, -⟩ := List.lookup_eq_some_iff.mp hl
    exact (hp (label, y) (by simp [he])).trans (List.prefix_append x m.rest).isInfix

/-- A sequence is read in two stretches. -/
theorem mem_readings_all_append {ps qs : List (Pattern ι)} (h : m ∈ (all (ps ++ qs)).readings t) :
    ∃ m₁ ∈ (all ps).readings t, ∃ m₂ ∈ (all qs).readings m₁.rest, m₂.rest = m.rest := by
  induction ps generalizing t m with
  | nil => exact ⟨⟨[], t⟩, by simp [all, readings], m, h, rfl⟩
  | cons p ps ih =>
    simp only [List.cons_append, all, List.foldr_cons, readings, List.mem_flatMap,
      List.mem_map] at h
    obtain ⟨m₁, h₁, m₂, h₂, rfl⟩ := h
    obtain ⟨m₃, h₃, m₄, h₄, he⟩ := ih h₂
    refine ⟨m₃.after m₁.parts, ?_, m₄, h₄, he⟩
    simp only [all, List.foldr_cons, readings, List.mem_flatMap, List.mem_map]
    exact ⟨m₁, h₁, m₃, h₃, rfl⟩

theorem take_length_sub (x y : Text) : (x ++ y).take ((x ++ y).length - y.length) = x := by
  simp

/-- The first part of a sequence that begins with a captured run. -/
theorem text_first_run [BEq ι] [LawfulBEq ι] {label : ι} {accepts : Char → Bool}
    (h : m ∈ (seq (part label (run accepts)) q).readings t) :
    m.text label = t.takeWhile accepts := by
  simp only [readings, List.mem_flatMap, List.mem_map] at h
  obtain ⟨m₁, ⟨m₀, h₀, rfl⟩, m₂, -, rfl⟩ := h
  obtain rfl : m₀ = ⟨[], t.dropWhile accepts⟩ := by simpa using h₀
  have htake := take_length_sub (t.takeWhile accepts) (t.dropWhile accepts)
  rw [List.takeWhile_append_dropWhile] at htake
  simp [Reading.text, Reading.after, htake]

/-- Whether a pattern may capture a character somewhere. -/
def captures : Pattern ι → Char → Bool
  | done, _ => false
  | one _, _ => false
  | run _, _ => false
  | seq p q, c => p.captures c || q.captures c
  | alt p q, c => p.captures c || q.captures c
  | star p, c => p.captures c
  | commit p, c => p.captures c
  | part _ p, c => p.reads c

/-- The captured parts of a reading are made of characters of a class. -/
def Holds (r : Char → Bool) (m : Reading ι) : Prop := ∀ x ∈ m.parts, ∀ c ∈ x.2, r c = true

theorem holds_after {m' : Reading ι} (h : Holds r m) (h' : Holds r m') :
    Holds r (m'.after m.parts) := by
  intro x hx
  exact (List.mem_append.mp hx).elim (h x) (h' x)

theorem holds_mono (h : Holds r m) (hr : ∀ c, r c = true → r' c = true) : Holds r' m :=
  fun x hx c hc => hr c (h x hx c hc)

theorem holds_repeated {body : Text → List (Reading ι)} (hb : ∀ t, ∀ m ∈ body t, Holds r m)
    (n : Nat) (hm : m ∈ repeated body n t) : Holds r m := by
  induction n generalizing t m with
  | zero =>
    obtain rfl : m = ⟨[], t⟩ := by simpa [repeated] using hm
    simp [Holds]
  | succ n ih =>
    simp only [repeated, List.mem_append, List.mem_flatMap, List.mem_map, List.mem_singleton] at hm
    rcases hm with ⟨m₁, h₁, m₂, h₂, rfl⟩ | rfl
    · exact holds_after (hb t m₁ h₁) (ih h₂)
    · simp [Holds]

/-- No other characters are captured than those that a pattern may capture. -/
theorem holds_of_mem (h : m ∈ p.readings t) : Holds p.captures m := by
  induction p generalizing t m with
  | done =>
    obtain rfl : m = ⟨[], t⟩ := by simpa [readings] using h
    simp [Holds]
  | one accepts =>
    cases t with
    | nil => simp [readings] at h
    | cons c t =>
      obtain ⟨-, rfl⟩ : accepts c = true ∧ m = ⟨[], t⟩ := by simpa [readings] using h
      simp [Holds]
  | run accepts =>
    obtain rfl : m = ⟨[], t.dropWhile accepts⟩ := by simpa [readings] using h
    simp [Holds]
  | seq p q ihp ihq =>
    simp only [readings, List.mem_flatMap, List.mem_map] at h
    obtain ⟨m₁, h₁, m₂, h₂, rfl⟩ := h
    exact holds_after (holds_mono (ihp h₁) fun c hc => by simp [captures, hc])
      (holds_mono (ihq h₂) fun c hc => by simp [captures, hc])
  | alt p q ihp ihq =>
    rcases List.mem_append.mp h with h | h
    · exact holds_mono (ihp h) fun c hc => by simp [captures, hc]
    · exact holds_mono (ihq h) fun c hc => by simp [captures, hc]
  | star p ih => exact holds_repeated (fun t m hm => ih hm) t.length h
  | commit p ih => exact ih (List.mem_of_mem_take h)
  | part label p ih =>
    obtain ⟨m₁, h₁, rfl⟩ := by simpa only [readings, List.mem_map] using h
    obtain ⟨x, rfl, hx, hp⟩ := takes_of_mem h₁
    intro y hy c hc
    rcases List.mem_cons.mp hy with rfl | hy
    · exact hx c (by simpa using hc)
    · exact hx c ((hp y hy).subset hc)

theorem not_mem_text [BEq ι] [LawfulBEq ι] {c : Char} (h : m ∈ p.readings t)
    (hc : p.captures c = false) (label : ι) : c ∉ m.text label := by
  intro hm
  unfold Reading.text at hm
  cases hl : m.parts.lookup label with
  | none => simp [hl] at hm
  | some y =>
    obtain ⟨l₁, l₂, he, -⟩ := List.lookup_eq_some_iff.mp hl
    have hcaptured := holds_of_mem h (label, y) (by simp [he]) c (by simpa [hl] using hm)
    simp [hc] at hcaptured

end TripleSlash.Pattern
