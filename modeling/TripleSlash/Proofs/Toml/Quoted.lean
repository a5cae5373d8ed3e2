import Mathlib.Data.List.Infix
import TripleSlash.Proofs.Text.Words
import TripleSlash.Toml.Quoted

/-! Strings that are written are read back, in whichever of the four forms they are written. -/
namespace TripleSlash.Toml.Quoted

variable {t u x y rest digits : Text} {c e q : Char} {long skipping : Bool} {k n limit : Nat}

/-! Escapes -/

/-- A letter that stands for a character begins no number, and neither blanks nor a line break. -/
theorem letter_of_escaped (h : escaped? e = some c) :
    (e ≠ 'x' ∧ e ≠ 'u' ∧ e ≠ 'U') ∧ isLineBlank e = false ∧ e ≠ '\n' ∧ e ≠ '\r' := by
  have hall : ∀ pair ∈ [('b', '\x08'), ('t', '\t'), ('n', '\n'), ('f', '\x0c'), ('r', '\r'),
      ('e', '\x1b'), ('"', '"'), ('\\', '\\')], (pair.1 ≠ 'x' ∧ pair.1 ≠ 'u' ∧ pair.1 ≠ 'U') ∧
      isLineBlank pair.1 = false ∧ pair.1 ≠ '\n' ∧ pair.1 ≠ '\r' := by decide
  obtain ⟨l₁, l₂, hl, -⟩ := List.lookup_eq_some_iff.mp h
  exact hall (e, c) (by rw [hl]; simp)

/-- The control characters are those of one byte that the plain ones leave out. -/
theorem ofHex?_of_control (h : isPlain c = false) :
    ofHex? ['0', '0', hexDigit (c.toNat / 16), hexDigit (c.toNat % 16)] = some c := by
  have hall : ∀ n < 128,
      ofHex? ['0', '0', hexDigit (n / 16), hexDigit (n % 16)] = some (Char.ofNat n) := by
    decide +kernel
  have hlt : c.toNat < 128 := by
    simp only [isPlain, Bool.or_eq_false_iff, Bool.and_eq_false_iff, decide_eq_false_iff_not,
      bne_eq_false_iff_eq] at h
    omega
  rw [hall _ hlt, Char.ofNat_toNat]

/-- How a character other than a quote is written in a basic string. -/
inductive Escaped (long : Bool) (c : Char) : Text → Prop where
  | letter {e : Char} (h : escaped? e = some c) : Escaped long c ['\\', e]
  | break (hl : long = true) (hc : c = '\n') : Escaped long c [c]
  | plain (hp : isPlain c = true) (hb : c ≠ '\\') : Escaped long c [c]
  | hex {a b : Char} (h : ofHex? ['0', '0', a, b] = some c) :
      Escaped long c ['\\', 'u', '0', '0', a, b]

theorem escape_escaped (long : Bool) (c : Char) : Escaped long c (escape long c) := by
  unfold escape
  split
  · exact .letter rfl
  · exact .letter rfl
  · cases long with
    | true => exact .break rfl rfl
    | false => exact .letter rfl
  · exact .letter rfl
  · exact .letter rfl
  · exact .letter rfl
  next hb =>
    split
    next hp => exact .plain hp hb
    next hp => exact .hex (ofHex?_of_control (by simpa using hp))

theorem stops_escape (hc : c ≠ '"') (long : Bool) (t : Text) :
    Text.Stops (· == '"') (escape long c ++ t) := by
  have h := escape_escaped long c
  generalize escape long c = written at h
  cases h <;> simp [hc]

theorem escape_ne_nil (long : Bool) (c : Char) : escape long c ≠ [] := by
  have h := escape_escaped long c
  generalize escape long c = written at h
  cases h <;> simp

theorem escapeAll_cons (hc : c ≠ '"') (t : Text) :
    escapeAll long limit n (c :: t) = escape long c ++ escapeAll long limit 0 t := by
  simp [escapeAll]

/-! Strings of one line -/

theorem readBasic_letter (he : escaped? e = some c) (h : readBasic t = some (u, rest)) :
    readBasic ('\\' :: e :: t) = some (c :: u, rest) := by
  obtain ⟨⟨hx, hu, hU⟩, -⟩ := letter_of_escaped he
  simp [readBasic, hx, hu, hU, he, h, cons]

theorem readBasic_plain (hp : isPlain c = true) (hq : c ≠ '"') (hb : c ≠ '\\')
    (h : readBasic t = some (u, rest)) : readBasic (c :: t) = some (c :: u, rest) := by
  rw [readBasic.eq_def]
  split <;> simp_all [cons]

theorem readBasic_escape (hc : c ≠ '"') (h : readBasic t = some (u, rest)) :
    readBasic (escape false c ++ t) = some (c :: u, rest) := by
  have hw := escape_escaped false c
  generalize escape false c = written at hw
  cases hw with
  | letter he => exact readBasic_letter he h
  | «break» hl => simp at hl
  | plain hp hb => exact readBasic_plain hp hc hb h
  | hex hh => simp [readBasic, hh, h, cons]

theorem readBasic_escapeAll (t rest : Text) :
    readBasic (escapeAll false 0 0 t ++ '"' :: rest) = some (t, rest) := by
  induction t with
  | nil => rfl
  | cons c t ih =>
    by_cases hc : c = '"'
    · subst hc
      exact readBasic_letter rfl ih
    · rw [escapeAll_cons hc, List.append_assoc]
      exact readBasic_escape hc ih

theorem readLiteral_plain (hp : ∀ c ∈ t, isPlain c = true) (hq : '\'' ∉ t) (rest : Text) :
    readLiteral (t ++ '\'' :: rest) = some (t, rest) := by
  induction t with
  | nil => rfl
  | cons c t ih =>
    rw [List.forall_mem_cons] at hp
    simp only [List.mem_cons, not_or] at hq
    have hc : c ≠ '\'' := Ne.symm hq.1
    simp [readLiteral, hp.1, ih hp.2 hq.2, cons]

/-! Strings of many lines -/

/-- Quotes in front of the three that end a long string belong to it, if there are two at most. -/
theorem finish_quotes (hk : k ≤ 2) (hr : Text.Stops (· == q) rest) :
    finish q (List.replicate k q ++ rest) = (List.replicate k q, rest) := by
  have hrest : (rest.take (2 - k)).takeWhile (· == q) = [] := by
    cases rest with
    | nil => simp
    | cons c rest =>
      have hc : (c == q) = false := (Text.stops_cons (p := (· == q))).mp hr
      cases 2 - k <;> simp [hc]
  have htake : ((List.replicate k q ++ rest).take 2).takeWhile (· == q) = List.replicate k q := by
    rw [List.take_append, List.take_of_length_le (by simpa using hk), List.length_replicate,
      List.takeWhile_append_of_pos (by simp), hrest, List.append_nil]
  rw [finish, htake, List.length_replicate]
  simp

/-- Where the text and the three quotes that end it begin with three quotes, there is nothing but
quotes. -/
theorem eq_replicate_of_triple (ht : ¬ [q, q, q] <+: t)
    (h : [q, q, q] <+: t ++ ([q, q, q] ++ rest)) :
    ∃ k ≤ 2, t = List.replicate k q := by
  rcases t with _ | ⟨a, _ | ⟨b, _ | ⟨c, t⟩⟩⟩
  · exact ⟨0, by decide, rfl⟩
  · obtain ⟨rfl, -⟩ := by simpa using h
    exact ⟨1, by decide, rfl⟩
  · obtain ⟨rfl, rfl, -⟩ := by simpa using h
    exact ⟨2, by decide, rfl⟩
  · obtain ⟨rfl, rfl, rfl⟩ : q = a ∧ q = b ∧ q = c := by simpa using h
    simp at ht

theorem replicate_append_comm (k : Nat) (q : Char) (t : Text) :
    List.replicate k q ++ ([q, q, q] ++ t) = [q, q, q] ++ (List.replicate k q ++ t) := by
  change List.replicate k q ++ (List.replicate 3 q ++ t) = List.replicate 3 q ++ _
  rw [← List.append_assoc, ← List.append_assoc, List.replicate_append_replicate,
    List.replicate_append_replicate, Nat.add_comm]

theorem mayStand_of_isPlain (hp : isPlain c = true) : mayStand c t = true := by simp [mayStand, hp]

theorem mayStand_feed : mayStand '\n' t = true := by simp [mayStand, afterBreak?]

/-! Long literal strings -/

theorem readLongLiteral_quotes (hk : k ≤ 2) (hr : Text.Stops (· == '\'') rest) :
    readLongLiteral (List.replicate k '\'' ++ ("'''".toList ++ rest)) =
      some (List.replicate k '\'', rest) := by
  rw [show "'''".toList = ['\'', '\'', '\''] from rfl, replicate_append_comm]
  exact congrArg some (finish_quotes hk hr)

theorem readLongLiteral_char (hq : ¬ "'''".toList <+: c :: t) (hm : mayStand c t = true)
    (h : readLongLiteral t = some (u, rest)) : readLongLiteral (c :: t) = some (c :: u, rest) := by
  rw [readLongLiteral.eq_def]
  split <;> simp_all [cons]

theorem readLongLiteral_append (hm : ∀ c ∈ t, isPlain c = true ∨ c = '\n')
    (hq : ¬ "'''".toList <:+: t) (hr : Text.Stops (· == '\'') rest) :
    readLongLiteral (t ++ ("'''".toList ++ rest)) = some (t, rest) := by
  induction t with
  | nil => exact readLongLiteral_quotes (k := 0) (by decide) hr
  | cons c t ih =>
    by_cases hend : "'''".toList <+: c :: t ++ ("'''".toList ++ rest)
    · obtain ⟨k, hk, ht⟩ := eq_replicate_of_triple (fun h => hq h.isInfix) hend
      rw [ht]
      exact readLongLiteral_quotes hk hr
    · rw [List.forall_mem_cons] at hm
      have hstand : mayStand c (t ++ ("'''".toList ++ rest)) = true := by
        rcases hm.1 with hp | rfl
        · exact mayStand_of_isPlain hp
        · exact mayStand_feed
      exact readLongLiteral_char hend hstand
        (ih hm.2 fun h => hq (h.trans (List.suffix_cons c t).isInfix))

/-! Long basic strings -/

theorem readLongBasic_quotes (hk : k ≤ 2) (hr : Text.Stops (· == '"') rest) :
    readLongBasic false (List.replicate k '"' ++ ("\"\"\"".toList ++ rest)) =
      some (List.replicate k '"', rest) := by
  rw [show "\"\"\"".toList = ['"', '"', '"'] from rfl, replicate_append_comm]
  exact congrArg some (finish_quotes hk hr)

theorem readLongBasic_letter (he : escaped? e = some c)
    (h : readLongBasic false t = some (u, rest)) :
    readLongBasic false ('\\' :: e :: t) = some (c :: u, rest) := by
  obtain ⟨⟨hx, hu, hU⟩, hblank, hfeed, hreturn⟩ := letter_of_escaped he
  have hbreak : (afterBreak? ((e :: t).dropWhile isLineBlank)).isSome = false := by
    simp [hblank, afterBreak?, hfeed, hreturn]
  simp [readLongBasic, hx, hu, hU, hbreak, he, h, cons]

theorem readLongBasic_char (hq : ¬ "\"\"\"".toList <+: c :: t) (hb : c ≠ '\\')
    (hm : mayStand c t = true) (h : readLongBasic false t = some (u, rest)) :
    readLongBasic false (c :: t) = some (c :: u, rest) := by
  rw [readLongBasic.eq_def]
  split <;> simp_all [cons]

theorem readLongBasic_escape (hc : c ≠ '"') (h : readLongBasic false t = some (u, rest)) :
    readLongBasic false (escape true c ++ t) = some (c :: u, rest) := by
  have hq : ¬ "\"\"\"".toList <+: c :: t := by simp [Ne.symm hc]
  have hw := escape_escaped true c
  generalize escape true c = written at hw
  cases hw with
  | letter he => exact readLongBasic_letter he h
  | «break» hl hn => exact readLongBasic_char hq (by simp [hn]) (hn ▸ mayStand_feed) h
  | plain hp hb => exact readLongBasic_char hq hb (mayStand_of_isPlain hp) h
  | hex hh => simp [readLongBasic, hh, h, cons]

/-- No more quotes stand in a row than are allowed, those in front of the text included. -/
theorem quotes_le_of_escapeAll (hn : n ≤ limit)
    (h : List.replicate k '"' <+: escapeAll long limit n t) : n + k ≤ limit := by
  induction k generalizing n t with
  | zero => exact hn
  | succ k ih =>
    cases t with
    | nil => simp [escapeAll, List.replicate_succ] at h
    | cons c t =>
      by_cases hc : c = '"'
      · subst hc
        by_cases hlt : n < limit
        · simp only [escapeAll, if_pos hlt, List.replicate_succ, List.cons_prefix_cons] at h
          have := ih hlt h.2
          omega
        · simp [escapeAll, hlt, List.replicate_succ] at h
      · have hstops := stops_escape hc long (escapeAll long limit 0 t)
        obtain ⟨w, hw⟩ := h
        rw [← escapeAll_cons (n := n) hc, ← hw, List.replicate_succ] at hstops
        simp at hstops

/-- Only quotes are written as nothing but quotes. -/
theorem eq_of_escapeAll_eq_replicate (h : escapeAll long limit n t = List.replicate k '"') :
    t = List.replicate k '"' := by
  induction t generalizing n k with
  | nil => exact h
  | cons c t ih =>
    by_cases hc : c = '"'
    · subst hc
      cases k with
      | zero => by_cases hlt : n < limit <;> simp [escapeAll, hlt] at h
      | succ k =>
        by_cases hlt : n < limit
        · simp only [escapeAll, if_pos hlt, List.replicate_succ, List.cons_inj_right] at h
          rw [ih h, List.replicate_succ]
        · simp [escapeAll, hlt, List.replicate_succ] at h
    · rw [escapeAll_cons hc] at h
      have hstops := stops_escape hc long (escapeAll long limit 0 t)
      cases k with
      | zero => exact absurd (List.append_eq_nil_iff.mp h).1 (escape_ne_nil long c)
      | succ k =>
        rw [h, List.replicate_succ] at hstops
        simp at hstops

theorem readLongBasic_append (hn : n ≤ 2) (hr : Text.Stops (· == '"') rest) :
    readLongBasic false (escapeAll true 2 n t ++ ("\"\"\"".toList ++ rest)) = some (t, rest) := by
  induction t generalizing n with
  | nil => exact readLongBasic_quotes (k := 0) (by decide) hr
  | cons c t ih =>
    by_cases hend : "\"\"\"".toList <+: escapeAll true 2 n (c :: t) ++ ("\"\"\"".toList ++ rest)
    · have hfew : ¬ ['"', '"', '"'] <+: escapeAll true 2 n (c :: t) := fun h => by
        have := quotes_le_of_escapeAll (k := 3) hn h
        omega
      obtain ⟨k, hk, hw⟩ := eq_replicate_of_triple hfew hend
      rw [hw, eq_of_escapeAll_eq_replicate hw]
      exact readLongBasic_quotes hk hr
    · by_cases hc : c = '"'
      · subst hc
        by_cases hlt : n < 2
        · simp only [escapeAll, if_pos hlt, List.cons_append] at hend ⊢
          exact readLongBasic_char hend (by decide) (mayStand_of_isPlain rfl) (ih hlt)
        · simp only [escapeAll, if_neg hlt]
          exact readLongBasic_letter rfl (ih (by decide))
      · rw [escapeAll_cons hc, List.append_assoc]
        exact readLongBasic_escape hc (ih (by decide))

/-! How often a quote stands in a row -/

/-- Counts one more character of a text. -/
def countRun (q : Char) (runs : Nat × Nat) (c : Char) : Nat × Nat :=
  let run := if c == q then runs.1 + 1 else 0
  (run, max run runs.2)

theorem longestRun_eq (q : Char) (t : Text) :
    longestRun q t = (t.foldl (countRun q) (0, 0)).2 := rfl

theorem longest_le_foldl (q : Char) (t : Text) (runs : Nat × Nat) :
    runs.2 ≤ (t.foldl (countRun q) runs).2 := by
  induction t generalizing runs with
  | nil => exact Nat.le_refl _
  | cons c t ih => exact (Nat.le_max_right _ _).trans (ih (countRun q runs c))

theorem foldl_replicate (q : Char) (k : Nat) (runs : Nat × Nat) :
    ((List.replicate (k + 1) q).foldl (countRun q) runs).1 = runs.1 + (k + 1) ∧
      runs.1 + (k + 1) ≤ ((List.replicate (k + 1) q).foldl (countRun q) runs).2 := by
  induction k generalizing runs with
  | zero =>
    have hstep : countRun q runs q = (runs.1 + 1, max (runs.1 + 1) runs.2) := by simp [countRun]
    have hfold : (List.replicate (0 + 1) q).foldl (countRun q) runs = countRun q runs q := rfl
    rw [hfold, hstep]
    exact ⟨rfl, Nat.le_max_left _ _⟩
  | succ k ih =>
    rw [List.replicate_succ, List.foldl_cons]
    obtain ⟨hrun, hlongest⟩ := ih (countRun q runs q)
    have hstep : (countRun q runs q).1 = runs.1 + 1 := by simp [countRun]
    omega

theorem not_isInfix_of_longestRun (h : longestRun q t ≤ n) :
    ¬ List.replicate (n + 1) q <:+: t := by
  rintro ⟨x, y, rfl⟩
  rw [longestRun_eq, List.foldl_append, List.foldl_append] at h
  have hrun := (foldl_replicate q n (x.foldl (countRun q) (0, 0))).2
  have hrest := longest_le_foldl q y ((List.replicate (n + 1) q).foldl (countRun q)
    (x.foldl (countRun q) (0, 0)))
  omega

theorem not_mem_of_longestRun (h : longestRun q t = 0) : q ∉ t := by
  intro hm
  obtain ⟨x, y, rfl⟩ := List.append_of_mem hm
  exact not_isInfix_of_longestRun (Nat.le_of_eq h) ⟨x, y, by simp⟩

/-! All forms -/

/-- A quote of either kind. -/
def isQuote (c : Char) : Bool := c == '"' || c == '\''

theorem plain_of_not_hasControl (h : hasControl t = false) (c : Char) (hc : c ∈ t) :
    isPlain c = true ∨ c = '\n' := by
  simp only [hasControl, List.any_eq_false] at h
  have := h c hc
  cases hp : isPlain c <;> simp_all

theorem read?_of_short (hd : ¬ "\"\"\"".toList <+: t) (hs : ¬ "'''".toList <+: t) :
    read? t = readShort? t := by
  unfold read?
  split <;> simp_all

theorem read?_basic (hr : Text.Stops isQuote rest) : read? (basic t ++ rest) = some (t, rest) := by
  have hwritten : basic t ++ rest = '"' :: (escapeAll false 0 0 t ++ '"' :: rest) := by
    simp [basic]
  have htwo : ¬ ['"', '"'] <+: escapeAll false 0 0 t ++ '"' :: rest := by
    intro h
    cases t with
    | nil =>
      cases rest with
      | nil => simp [escapeAll] at h
      | cons c rest =>
        obtain rfl : '"' = c := by simpa [escapeAll] using h
        simp [isQuote] at hr
    | cons c t =>
      by_cases hc : c = '"'
      · simp [escapeAll, hc] at h
      · have hstops := stops_escape hc false (escapeAll false 0 0 t ++ '"' :: rest)
        obtain ⟨w, hw⟩ := h
        rw [← List.append_assoc, ← escapeAll_cons (n := 0) hc, ← hw] at hstops
        simp at hstops
  rw [hwritten, read?_of_short (by simpa using htwo) (by simp), readShort?, readBasic_escapeAll]

theorem read?_literal (hp : ∀ c ∈ t, isPlain c = true) (hq : '\'' ∉ t)
    (hr : Text.Stops isQuote rest) : read? (literal t ++ rest) = some (t, rest) := by
  have hwritten : literal t ++ rest = '\'' :: (t ++ '\'' :: rest) := by simp [literal]
  have htwo : ¬ ['\'', '\''] <+: t ++ '\'' :: rest := by
    intro h
    cases t with
    | nil =>
      cases rest with
      | nil => simp at h
      | cons c rest =>
        obtain rfl : '\'' = c := by simpa using h
        simp [isQuote] at hr
    | cons c t =>
      obtain ⟨rfl, -⟩ := by simpa using h
      simp at hq
  rw [hwritten, read?_of_short (by simp) (by simpa using htwo), readShort?,
    readLiteral_plain hp hq]

/-- A character of a line break. -/
def isBreakPart (c : Char) : Bool := c == '\n' || c == '\r'

theorem isBreakPart_of_isPlain (hp : isPlain c = true) : isBreakPart c = false := by
  have hfeed : c ≠ '\n' := by rintro rfl; simp [isPlain] at hp
  have hreturn : c ≠ '\r' := by rintro rfl; simp [isPlain] at hp
  simp [isBreakPart, hfeed, hreturn]

theorem afterFirstBreak_of_stops (h : Text.Stops isBreakPart t) :
    afterFirstBreak t = t := by
  cases t with
  | nil => rfl
  | cons c t =>
    have hc := Text.stops_cons.mp h
    simp only [isBreakPart, Bool.or_eq_false_iff, beq_eq_false_iff_ne] at hc
    simp [afterFirstBreak, afterBreak?, hc.1, hc.2]

/-- The text of a long string begins where it was written. -/
theorem afterFirstBreak_firstBreak
    (h : '\n' ∉ t → Text.Stops isBreakPart x) :
    afterFirstBreak (firstBreak t ++ x) = x := by
  unfold firstBreak
  split
  · rfl
  next hn => exact afterFirstBreak_of_stops (h hn)

theorem read?_triple (t : Text) :
    read? ("\"\"\"".toList ++ t) = readLongBasic false (afterFirstBreak t) ∧
      read? ("'''".toList ++ t) = readLongLiteral (afterFirstBreak t) := ⟨rfl, rfl⟩

theorem read?_longBasic (hr : Text.Stops isQuote rest) :
    read? (longBasic t ++ rest) = some (t, rest) := by
  have hwritten : longBasic t ++ rest = "\"\"\"".toList ++
      (firstBreak t ++ (escapeAll true 2 0 t ++ ("\"\"\"".toList ++ rest))) := by
    simp [longBasic]
  have hfirst : '\n' ∉ t → Text.Stops isBreakPart
      (escapeAll true 2 0 t ++ ("\"\"\"".toList ++ rest)) := by
    intro hn
    cases t with
    | nil => simp [escapeAll, isBreakPart]
    | cons c t =>
      by_cases hc : c = '"'
      · simp [escapeAll, hc, isBreakPart]
      · have hw := escape_escaped true c
        rw [escapeAll_cons hc]
        generalize escape true c = written at hw
        cases hw with
        | letter he => simp [isBreakPart]
        | «break» hl hfeed => simp [hfeed] at hn
        | plain hp hb => simpa using isBreakPart_of_isPlain hp
        | hex hh => simp [isBreakPart]
  rw [hwritten, (read?_triple _).1, afterFirstBreak_firstBreak hfirst]
  exact readLongBasic_append (by decide) (hr.mono fun c hc => by simp_all [isQuote])

theorem read?_longLiteral (hm : ∀ c ∈ t, isPlain c = true ∨ c = '\n')
    (hq : ¬ "'''".toList <:+: t) (hr : Text.Stops isQuote rest) :
    read? (longLiteral t ++ rest) = some (t, rest) := by
  have hwritten : longLiteral t ++ rest = "'''".toList ++
      (firstBreak t ++ (t ++ ("'''".toList ++ rest))) := by
    simp [longLiteral]
  have hfirst : '\n' ∉ t → Text.Stops isBreakPart
      (t ++ ("'''".toList ++ rest)) := by
    intro hn
    cases t with
    | nil => simp [isBreakPart]
    | cons c t =>
      rcases hm c (by simp) with hp | rfl
      · simpa using isBreakPart_of_isPlain hp
      · simp at hn
  rw [hwritten, (read?_triple _).2, afterFirstBreak_firstBreak hfirst]
  exact readLongLiteral_append hm hq (hr.mono fun c hc => by simp_all [isQuote])

/-- A string that is written is read back. -/
theorem read?_write (t : Text) (hr : Text.Stops isQuote rest) :
    read? (write t ++ rest) = some (t, rest) := by
  unfold write
  dsimp only
  split
  · exact read?_basic hr
  · split
    next h =>
      simp only [Bool.and_eq_true, Bool.not_eq_true', beq_iff_eq] at h
      obtain ⟨⟨hcontrol, hfeed⟩, hsingle⟩ := h
      refine read?_literal (fun c hc => ?_) (not_mem_of_longestRun hsingle) hr
      rcases plain_of_not_hasControl hcontrol c hc with hp | rfl
      · exact hp
      · simp [hc] at hfeed
    next =>
      split
      · exact read?_longBasic hr
      · split
        next h =>
          simp only [Bool.and_eq_true, Bool.not_eq_true', decide_eq_true_eq] at h
          obtain ⟨hcontrol, hsingle⟩ := h
          exact read?_longLiteral (plain_of_not_hasControl hcontrol)
            (not_isInfix_of_longestRun hsingle) hr
        next =>
          split
          · exact read?_longBasic hr
          · exact read?_basic hr

end TripleSlash.Toml.Quoted
