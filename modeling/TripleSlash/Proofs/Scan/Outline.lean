import TripleSlash.Proofs.Comment.Lines
import TripleSlash.Proofs.Comment.Slots
import TripleSlash.Proofs.Scan.Lists

/-! What a file looks like to a pass, said of its lines and without the states of the pass: which
lines stand in parameter lists, which attributes belong together, and which declarations are to get
a comment. -/
namespace TripleSlash.Scan

variable (lines : List Text)

/-- The lines below the one at `i` and above the one at `j`. -/
def between (i j : Nat) : List Text := (lines.take j).drop (i + 1)

/-- Lines without comments over which the parameter list of a declaration stays open. -/
def StaysOpen (d : Declaration) (below : List Text) : Prop :=
  (∀ x ∈ below, isComment x = false) ∧
    Parens.closes Parens.opened (d.rawParameters ++ below.flatten) = false

/-- Lines without comments in which the parameter list of a declaration closes. -/
def Closes (d : Declaration) (below : List Text) : Prop :=
  (∀ x ∈ below, isComment x = false) ∧
    Parens.closes Parens.opened (d.rawParameters ++ below.flatten) = true

/-- A line that stands in the parameter list of an earlier declaration, which itself stands in
none. -/
def Consumed (j : Nat) : Prop :=
  ∃ i, ∃ _ : i < j, ¬ Consumed i ∧ ∃ line d, lines[i]? = some line ∧ isComment line = false ∧
    isAttribute line = false ∧ Declaration.recognize? line = some d ∧ d.isOpen = true ∧
    StaysOpen d (between lines i j)
termination_by j

/-- A line with a declaration, in no parameter list. -/
structure Declares (i : Nat) (d : Declaration) : Prop where
  free : ¬ Consumed lines i
  line : ∃ line, lines[i]? = some line ∧ isComment line = false ∧ isAttribute line = false ∧
    Declaration.recognize? line = some d

/-- A line with an attribute, in no parameter list. -/
structure Attribute (i : Nat) : Prop where
  free : ¬ Consumed lines i
  line : ∃ line, lines[i]? = some line ∧ isAttribute line = true

/-- The first line of the longest run of attributes that ends above the line at `i`; where there is
no attribute, the line at `i`. -/
structure RunStart (i a : Nat) : Prop where
  le : a ≤ i
  attributes : ∀ k, a ≤ k → k < i → Attribute lines k
  longest : ∀ k, k + 1 = a → ¬ Attribute lines k

/-- Above a line, with at most attributes in between, there is a comment. -/
def Documented (i : Nat) : Prop :=
  ∃ k < i, (∃ line, lines[k]? = some line ∧ isComment line = true) ∧
    ∀ m, k < m → m < i → Attribute lines m

/-- The parameter list of the declaration at `i` is open in front of the line at `j`. -/
structure OpenAt (j i : Nat) (d : Declaration) : Prop where
  before : i < j
  declares : Declares lines i d
  isOpen : d.isOpen = true
  stays : StaysOpen d (between lines i j)

variable (o : Options)

/-- The declaration on a line is one that a pass comments, as far as its own line and the lines
above it tell. -/
structure Wanted (i : Nat) (d : Declaration) : Prop where
  enabled : o.documented.contains d.access = true
  template : d.kind.Templated
  undocumented : o.mode = .fillMissing → ¬ Documented lines i

/-- A declaration that is to get a comment: it is wanted, and its parameter list does not stay
open. -/
structure Commented (i : Nat) (d : Declaration) : Prop where
  declares : Declares lines i d
  wanted : Wanted lines o i d
  closes : d.isOpen = true → ∃ j, Closes d (between lines i j)

variable {lines o} {i j k a : Nat} {d d' : Declaration} {line : Text}

theorem consumed_iff : Consumed lines j ↔ ∃ i d, OpenAt lines j i d := by
  rw [Consumed]
  constructor
  · rintro ⟨i, hij, hfree, line, d, hline, hc, ha, hd, ho, hopen⟩
    exact ⟨i, d, hij, ⟨hfree, line, hline, hc, ha, hd⟩, ho, hopen⟩
  · rintro ⟨i, d, hij, ⟨hfree, line, hline, hc, ha, hd⟩, ho, hopen⟩
    exact ⟨i, hij, hfree, line, d, hline, hc, ha, hd, ho, hopen⟩

theorem Declares.unique (h : Declares lines i d) (h' : Declares lines i d') : d = d' := by
  obtain ⟨line, hline, -, -, hd⟩ := h.line
  obtain ⟨line', hline', -, -, hd'⟩ := h'.line
  obtain rfl : line = line' := by simpa [hline] using hline'
  simpa [hd] using hd'

/-- A line is declared by its own text. -/
theorem Declares.recognize? (h : Declares lines i d) (hline : lines[i]? = some line) :
    isComment line = false ∧ isAttribute line = false ∧
      Declaration.recognize? line = some d := by
  obtain ⟨line', hline', hrest⟩ := h.line
  obtain rfl : line = line' := by simpa [hline] using hline'
  exact hrest

theorem Attribute.isAttribute (h : Attribute lines i) (hline : lines[i]? = some line) :
    isAttribute line = true := by
  obtain ⟨line', hline', ha⟩ := h.line
  obtain rfl : line = line' := by simpa [hline] using hline'
  exact ha

theorem getElem?_of_drop {rest : List Text} (h : lines.drop j = line :: rest) :
    lines[j]? = some line ∧ lines.drop (j + 1) = rest := by
  have hhead := congrArg List.head? h
  refine ⟨by simpa using hhead, ?_⟩
  rw [← List.tail_drop, h]
  rfl

/-! The lines between two lines. -/

theorem between_self (lines : List Text) (i : Nat) : between lines i (i + 1) = [] := by
  simp [between]

theorem between_succ (hij : i < j) (hline : lines[j]? = some line) :
    between lines i (j + 1) = between lines i j ++ [line] := by
  have hlt : j < lines.length := by
    obtain ⟨h, -⟩ := List.getElem?_eq_some_iff.mp hline
    exact h
  rw [between, between, List.take_add_one, hline, List.drop_append_of_le_length]
  · rfl
  · simp
    omega

/-- Lines further down only come behind. -/
theorem between_of_le (i : Nat) (hjk : j ≤ k) : between lines i j <+: between lines i k := by
  unfold between
  obtain ⟨rest, hrest⟩ : lines.take j <+: lines.take k := List.take_prefix_take_left hjk
  rw [← hrest, List.drop_append]
  exact List.prefix_append _ _

theorem between_of_length_le (i : Nat) (hj : lines.length ≤ j) (hk : lines.length ≤ k) :
    between lines i j = between lines i k := by
  simp [between, List.take_of_length_le hj, List.take_of_length_le hk]

theorem mem_between (hij : i < j) (hjk : j < k) (hline : lines[j]? = some line) :
    line ∈ between lines i k := by
  apply (between_of_le i hjk).subset
  rw [between_succ hij hline]
  simp

/-! A list that stays open and then closes. -/

theorem StaysOpen.of_prefix {x y : List Text} (hxy : x <+: y) (h : StaysOpen d y) :
    StaysOpen d x := by
  obtain ⟨z, rfl⟩ := hxy
  refine ⟨fun w hw => h.1 w (by simp [hw]), Parens.not_closes_of_append (y := z.flatten) ?_⟩
  simpa using h.2

theorem StaysOpen.not_closes {x : List Text} (h : StaysOpen d x) : ¬ Closes d x := by
  intro hclose
  simpa [h.2] using hclose.2

/-- The list of a declaration in front of some lines. -/
theorem staysOpen_nil (hd : Declaration.recognize? line = some d) (ho : d.isOpen = true) :
    StaysOpen d [] := by
  obtain ⟨x, -, -, -, hopen⟩ := Declaration.open_parameters hd ho
  exact ⟨by simp, by simpa using hopen⟩

/-- Depth of a parameter list behind some lines. -/
def depthBehind (d : Declaration) (below : List Text) : Nat :=
  Parens.depthAfter Parens.opened (d.rawParameters ++ below.flatten)

/-- A further line closes the list or changes its depth. -/
theorem StaysOpen.append {x : List Text} (h : StaysOpen d x) (hc : isComment line = false) :
    (Closes d (x ++ [line]) ↔ Parens.closes (depthBehind d x) line = true) ∧
      (StaysOpen d (x ++ [line]) ↔ Parens.closes (depthBehind d x) line = false) ∧
      depthBehind d (x ++ [line]) = Parens.depthAfter (depthBehind d x) line := by
  have hlines : ∀ w ∈ x ++ [line], isComment w = false := by
    intro w hw
    rcases List.mem_append.mp hw with hw | hw
    · exact h.1 w hw
    · obtain rfl : w = line := by simpa using hw
      exact hc
  obtain ⟨hcloses, hdepth, -⟩ := Parens.append_of_not_closes (y := line) h.2
  have htext : d.rawParameters ++ (x ++ [line]).flatten =
      (d.rawParameters ++ x.flatten) ++ line := by simp
  refine ⟨?_, ?_, ?_⟩
  · rw [Closes, htext, hcloses]
    exact and_iff_right hlines
  · rw [StaysOpen, htext, hcloses]
    exact and_iff_right hlines
  · rw [depthBehind, htext, hdepth]
    rfl

variable {i' : Nat}

/-- Two declarations whose lists are open in front of the same line are the same. -/
theorem OpenAt.unique (h : OpenAt lines j i d) (h' : OpenAt lines j i' d') : i = i' ∧ d = d' := by
  have hline : i = i' := by
    rcases Nat.lt_trichotomy i i' with hlt | heq | hgt
    · refine absurd (consumed_iff.mpr ⟨i, d, hlt, h.declares, h.isOpen, ?_⟩) h'.declares.free
      exact h.stays.of_prefix (between_of_le i (Nat.le_of_lt h'.before))
    · exact heq
    · refine absurd (consumed_iff.mpr ⟨i', d', hgt, h'.declares, h'.isOpen, ?_⟩) h.declares.free
      exact h'.stays.of_prefix (between_of_le i' (Nat.le_of_lt h.before))
  subst hline
  exact ⟨rfl, h.declares.unique h'.declares⟩

/-- In front of the next line a list is open that the line opens or does not close. -/
theorem openAt_succ (hline : lines[j]? = some line) : OpenAt lines (j + 1) i d ↔
    (i = j ∧ Declares lines j d ∧ d.isOpen = true) ∨
      OpenAt lines j i d ∧ isComment line = false ∧
        Parens.closes (depthBehind d (between lines i j)) line = false := by
  constructor
  · intro h
    rcases Nat.lt_or_ge i j with hij | hji
    · right
      have hmem : line ∈ between lines i (j + 1) := mem_between hij (Nat.lt_succ_self j) hline
      have hstays := h.stays.of_prefix (between_of_le i (Nat.le_succ j))
      have hc := h.stays.1 line hmem
      refine ⟨⟨hij, h.declares, h.isOpen, hstays⟩, hc, ?_⟩
      rw [← (hstays.append hc).2.1, ← between_succ hij hline]
      exact h.stays
    · left
      obtain rfl : i = j := by have := h.before; omega
      exact ⟨rfl, h.declares, h.isOpen⟩
  · rintro (⟨rfl, hd, ho⟩ | ⟨h, hc, hclose⟩)
    · obtain ⟨line', -, -, -, hrec⟩ := hd.line
      refine ⟨Nat.lt_succ_self i, hd, ho, ?_⟩
      rw [between_self]
      exact staysOpen_nil hrec ho
    · refine ⟨Nat.lt_succ_of_lt h.before, h.declares, h.isOpen, ?_⟩
      rw [between_succ h.before hline, (h.stays.append hc).2.1]
      exact hclose

/-- A comment that stands in an open list leaves the list without an end. -/
theorem OpenAt.not_closes_of_comment (h : OpenAt lines j i d) (hline : lines[j]? = some line)
    (hc : isComment line = true) : ¬ ∃ k, Closes d (between lines i k) := by
  rintro ⟨k, hk⟩
  rcases Nat.lt_or_ge j k with hjk | hkj
  · simp [hk.1 line (mem_between h.before hjk hline)] at hc
  · exact (h.stays.of_prefix (between_of_le i hkj)).not_closes hk

/-- So does the end of the file. -/
theorem OpenAt.not_closes_of_length_le (h : OpenAt lines j i d) (hj : lines.length ≤ j) :
    ¬ ∃ k, Closes d (between lines i k) := by
  rintro ⟨k, hk⟩
  rcases Nat.lt_or_ge j k with hjk | hkj
  · rw [between_of_length_le i (by omega : lines.length ≤ k) hj] at hk
    exact h.stays.not_closes hk
  · exact (h.stays.of_prefix (between_of_le i hkj)).not_closes hk

theorem OpenAt.closes (h : OpenAt lines j i d) (hline : lines[j]? = some line)
    (hc : isComment line = false)
    (hclose : Parens.closes (depthBehind d (between lines i j)) line = true) :
    Closes d (between lines i (j + 1)) := by
  rw [between_succ h.before hline, (h.stays.append hc).1]
  exact hclose

theorem OpenAt.depth_succ (h : OpenAt lines j i d) (hline : lines[j]? = some line)
    (hc : isComment line = false) : depthBehind d (between lines i (j + 1)) =
      Parens.depthAfter (depthBehind d (between lines i j)) line := by
  rw [between_succ h.before hline, (h.stays.append hc).2.2]

/-! Runs of attributes and comments above them. -/

theorem isAttribute_of_isComment (hc : isComment line = true) : isAttribute line = false := by
  obtain ⟨rest, hr⟩ := isComment_iff.mp hc
  have hnot : ¬ "[".toList <+: line.dropWhile isIndent := by
    rw [← hr]
    simp
  rw [← isAttribute_iff] at hnot
  simpa using hnot

theorem runStart_self (h : ∀ k, k + 1 = i → ¬ Attribute lines k) : RunStart lines i i :=
  ⟨Nat.le_refl i, fun _ hk hk' => absurd hk (Nat.not_le.mpr hk'), h⟩

/-- Behind a line that is no attribute a run has not begun. -/
theorem runStart_succ (h : ¬ Attribute lines j) : RunStart lines (j + 1) (j + 1) :=
  runStart_self fun k hk => by
    obtain rfl : k = j := by omega
    exact h

theorem RunStart.succ (h : RunStart lines j a) (ha : Attribute lines j) :
    RunStart lines (j + 1) a where
  le := Nat.le_succ_of_le h.le
  attributes := by
    intro k hak hkj
    rcases Nat.lt_or_ge k j with hlt | hge
    · exact h.attributes k hak hlt
    · obtain rfl : k = j := by omega
      exact ha
  longest := h.longest

theorem documented_succ_of_attribute (h : Attribute lines j) (hline : lines[j]? = some line)
    (hc : isComment line = false) : Documented lines (j + 1) ↔ Documented lines j := by
  constructor
  · rintro ⟨k, hk, ⟨line', hline', hc'⟩, hrun⟩
    have hne : k ≠ j := by
      rintro rfl
      obtain rfl : line = line' := by simpa [hline] using hline'
      simp [hc] at hc'
    exact ⟨k, by omega, ⟨line', hline', hc'⟩, fun m hm hm' => hrun m hm (by omega)⟩
  · rintro ⟨k, hk, hcomment, hrun⟩
    refine ⟨k, by omega, hcomment, fun m hm hm' => ?_⟩
    rcases Nat.lt_or_ge m j with hlt | hge
    · exact hrun m hm hlt
    · obtain rfl : m = j := by omega
      exact h

theorem documented_succ_of_comment (hline : lines[j]? = some line) (hc : isComment line = true) :
    Documented lines (j + 1) :=
  ⟨j, by omega, ⟨line, hline, hc⟩, fun m hm hm' => by omega⟩

theorem not_documented_succ (h : ¬ Attribute lines j) (hline : lines[j]? = some line)
    (hc : isComment line = false) : ¬ Documented lines (j + 1) := by
  rintro ⟨k, hk, ⟨line', hline', hc'⟩, hrun⟩
  rcases Nat.lt_or_ge k j with hlt | hge
  · exact h (hrun j hlt (by omega))
  · obtain rfl : k = j := by omega
    obtain rfl : line = line' := by simpa [hline] using hline'
    simp [hc] at hc'

end TripleSlash.Scan
