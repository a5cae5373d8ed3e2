import TripleSlash.Proofs.Parens.Counted

/-! Lists that are read chunk by chunk. The parenthesis that closes a list is found in the same
place, and at the same depths, however the text is cut into chunks. -/
namespace TripleSlash.Parens

variable {t x y before rest : Text} {d e n : Nat} {front : List Text}

/-- Advances over a text at a depth. Gives the byte offset of the parenthesis that closes the list,
if one does, and the depth that is left. -/
def advance (d : Nat) (t : Text) : Option Nat × Nat :=
  match scan d t with
  | .unclosed n => (none, n)
  | .closed before _ => (some before.byteSize, 0)

/-- Advances over chunks, one behind the other, until the list closes in one of them. The offset
counts from the start of the first chunk. -/
def advanceAll (d : Nat) : List Text → Option Nat × Nat
  | [] => (none, d)
  | x :: chunks =>
    match advance d x with
    | (some n, e) => (some n, e)
    | (none, e) => ((advanceAll e chunks).1.map (x.byteSize + ·), (advanceAll e chunks).2)

/-- As many lists are closed in a text as were open at a depth in front of it and opened in it. -/
def Reaches (d : Nat) (t : Text) : Prop := t.count ')' = d + t.count '('

/-- The first parenthesis with which a text closes all lists stands behind `before`. -/
structure Closing (d : Nat) (t before : Text) : Prop where
  stands : before ++ [')'] <+: t
  reaches : Reaches d (before ++ [')'])
  first : ∀ x, x ++ [')'] <+: before → ¬ Reaches d (x ++ [')'])

/-! The parenthesis that closes a list -/

/-- Lists are closed one at a time, so none is open any more only where one parenthesis closes
the last of them. -/
theorem openThroughout_iff (hd : 0 < d) :
    OpenThroughout d t ↔ ∀ x, x ++ [')'] <+: t → ¬ Reaches d (x ++ [')']) := by
  constructor
  · intro h x hx hreach
    have hlt := h _ hx
    simp only [Reaches] at hreach
    omega
  · intro h x
    induction x using List.reverseRecOn with
    | nil => exact fun _ => by simpa using hd
    | append_singleton x c ih =>
      intro hx
      have hlt := ih ((List.prefix_append x [c]).trans hx)
      by_cases hc : c = ')'
      · subst hc
        have hne := h x hx
        simp only [Reaches, List.count_append, List.count_singleton] at hne ⊢
        simp at hne ⊢
        omega
      · rw [List.count_append, List.count_append, List.count_singleton, if_neg (by simpa using hc)]
        omega

theorem closing_iff (hd : 0 < d) : Closing d t before ↔ ∃ rest, scan d t = .closed before rest := by
  have hreach : Reaches d (before ++ [')']) ↔ before.count ')' + 1 = d + before.count '(' := by
    simp [Reaches, List.count_append]
  constructor
  · rintro ⟨⟨rest, rfl⟩, hr, hfirst⟩
    refine ⟨rest, (scan_eq_closed_iff hd).mpr ⟨by simp, ?_, hreach.mp hr⟩⟩
    exact (openThroughout_iff hd).mpr hfirst
  · rintro ⟨rest, hs⟩
    obtain ⟨rfl, hopen, hcount⟩ := (scan_eq_closed_iff hd).mp hs
    exact ⟨⟨rest, by simp⟩, hreach.mpr hcount, (openThroughout_iff hd).mp hopen⟩

theorem advance_eq_some_iff (hd : 0 < d) :
    advance d t = (some n, e) ↔ e = 0 ∧ ∃ before, Closing d t before ∧ before.byteSize = n := by
  simp only [closing_iff hd]
  unfold advance
  cases scan d t with
  | unclosed m => simp
  | closed before rest => simp [and_comm, eq_comm]

theorem advance_eq_none_iff (hd : 0 < d) :
    advance d t = (none, e) ↔ (∀ x, x ++ [')'] <+: t → ¬ Reaches d (x ++ [')'])) ∧
      e + t.count ')' = d + t.count '(' := by
  rw [← openThroughout_iff hd, ← scan_eq_unclosed_iff hd]
  unfold advance
  cases scan d t <;> simp

/-! Chunks -/

theorem advance_of_not_closes (h : closes d t = false) : advance d t = (none, depthAfter d t) := by
  unfold closes depthAfter advance at *
  cases hs : scan d t <;> simp_all

/-- Behind a text that leaves a list open, the list goes on. -/
theorem advance_append (h : closes d x = false) : advance d (x ++ y) =
    ((advance (depthAfter d x) y).1.map (x.byteSize + ·), (advance (depthAfter d x) y).2) := by
  unfold closes depthAfter at *
  cases hx : scan d x with
  | closed before rest => simp [hx] at h
  | unclosed n =>
    simp only [advance, scan_append_of_unclosed hx]
    cases scan n y <;> simp [foldr_cons_unclosed, foldr_cons_closed]

theorem advance_append_of_closes (h : closes d x = true) : advance d (x ++ y) = advance d x := by
  unfold closes at h
  cases hx : scan d x with
  | closed before rest => simp [advance, hx, scan_append_of_closed hx]
  | unclosed n => simp [hx] at h

theorem advance_eq_none (h : (advance d t).1 = none) :
    closes d t = false ∧ (advance d t).2 = depthAfter d t := by
  unfold closes depthAfter advance at *
  cases hs : scan d t <;> simp_all

/-- Chunk by chunk a list closes where it closes in the whole text. -/
theorem advanceAll_flatten (d : Nat) (chunks : List Text) :
    advanceAll d chunks = advance d chunks.flatten := by
  induction chunks generalizing d with
  | nil => rfl
  | cons x chunks ih =>
    rw [List.flatten_cons, advanceAll]
    cases hx : closes d x with
    | false => simp only [advance_of_not_closes hx, advance_append hx, ih]
    | true =>
      rw [advance_append_of_closes hx]
      unfold closes at hx
      unfold advance
      cases hs : scan d x <;> simp_all

/-- The depth in a chunk is the depth in the whole text at the same place. -/
theorem depth_in_chunk (h : (advanceAll d front).1 = none) :
    (advance (advanceAll d front).2 x).2 = (advance d (front.flatten ++ x)).2 := by
  rw [advanceAll_flatten] at *
  obtain ⟨hopen, hdepth⟩ := advance_eq_none h
  rw [hdepth, advance_append hopen]

/-- A list closes at the first parenthesis that closes as many lists as are open, however its text
is cut into chunks; where there is none it stays open, at the number of lists that are open. -/
theorem advance_chunked (hd : 0 < d) :
    (∀ n e, advance d t = (some n, e) ↔
      e = 0 ∧ ∃ before, Closing d t before ∧ before.byteSize = n) ∧
    (∀ e, advance d t = (none, e) ↔ (∀ x, x ++ [')'] <+: t → ¬ Reaches d (x ++ [')'])) ∧
      e + t.count ')' = d + t.count '(') ∧
    (∀ chunks, chunks.flatten = t → advanceAll d chunks = advance d t) ∧
    (∀ front x, (advanceAll d front).1 = none →
      (advance (advanceAll d front).2 x).2 = (advance d (front.flatten ++ x)).2) ∧
    ∀ a b, closes opened a = false → advance opened (a ++ b) =
      ((advance (depthAfter opened a) b).1.map (a.byteSize + ·),
        (advance (depthAfter opened a) b).2) := by
  refine ⟨fun n e => advance_eq_some_iff hd, fun e => advance_eq_none_iff hd, ?_, ?_, ?_⟩
  · rintro chunks rfl
    exact advanceAll_flatten d chunks
  · intro front x hopen
    exact depth_in_chunk hopen
  · intro a b hopen
    exact advance_append hopen

/-- A list in three chunks that closes in the last one, behind a character of two bytes. -/
theorem advance_chunked_tuple :
    0 < 1 ∧ closes opened "(int é, ".toList = false ∧
      advanceAll 1 ["(int é, ".toList, "int b) pair".toList, ", int c) => c;".toList] =
        (some 27, 0) ∧
      advance opened ("(int é, ".toList ++ "int b) pair, int c) => c;".toList) = (some 27, 0) := by
  obtain ⟨-, -, hchunks, -, hafter⟩ :=
    advance_chunked (d := 1) (t := "(int é, int b) pair, int c) => c;".toList) (by decide)
  have hopen : closes opened "(int é, ".toList = false := by decide +kernel
  have hwhole : advance 1 "(int é, int b) pair, int c) => c;".toList = (some 27, 0) := by
    decide +kernel
  refine ⟨by decide, hopen, (hchunks _ rfl).trans hwhole, ?_⟩
  rw [hafter _ _ hopen]
  decide +kernel

end TripleSlash.Parens
