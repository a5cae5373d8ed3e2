import TripleSlash.Files.Disk

/-! Where a path leads, as its spelling says. A path that goes up nowhere leads from its start along
its names, so two such paths that lead to one node say the same, but for how they begin. -/
namespace TripleSlash

variable {d : Disk} {p q n piece : Text} {ps : List Text} {here there : Location}

namespace Path

/-- How a path begins: at the root, with a dot, or with a name. -/
def front (p : Text) : List Component :=
  if isAbsolute p then [.root] else if (pieces p).head? = some ".".toList then [.here] else []

/-- Whether a piece of a path says something. -/
def Says (piece : Text) : Prop := piece ≠ [] ∧ piece ≠ ".".toList

instance : Decidable (Says piece) := inferInstanceAs (Decidable (_ ∧ _))

/-- The pieces of a path that say something. -/
def names (p : Text) : List Text := (pieces p).filter (Says ·)

/-- What a piece says. -/
def component (n : Text) : Component := if n = "..".toList then .up else .name n

/-- A path goes up to the directory above one. -/
def GoesUp (p : Text) : Prop := .up ∈ components p

theorem components_eq (p : Text) : components p = front p ++ (names p).map component := rfl

theorem isAbsolute_iff : isAbsolute p = true ↔ front p = [.root] := by
  unfold front
  split
  next h => simp [h]
  next h => split <;> simp [h]

theorem isAbsolute_of_front (h : front p = front q) : isAbsolute p = isAbsolute q := by
  rw [Bool.eq_iff_iff, isAbsolute_iff, isAbsolute_iff, h]

theorem component_of_not_up (h : component n ≠ .up) : component n = .name n ∧ n ≠ "..".toList := by
  unfold component at h ⊢
  split <;> simp_all

/-- Where a path goes up nowhere, its names are names. -/
theorem names_of_not_goesUp (h : ¬ GoesUp p) (hn : n ∈ names p) : Says n ∧ n ≠ "..".toList := by
  have hvoice : Says n := by simpa using (List.mem_filter.mp hn).2
  refine ⟨hvoice, (component_of_not_up fun hup => h ?_).2⟩
  rw [GoesUp, components_eq, List.mem_append, ← hup]
  exact .inr (List.mem_map_of_mem hn)

theorem names_of_fileName? (h : fileName? p = some n) :
    ∃ init, names p = init ++ [n] ∧ n ≠ "..".toList := by
  have hlast : (components p).getLast? = some (.name n) := by
    unfold fileName? at h
    split at h
    next m hm => rw [hm, Option.some.inj h]
    next => simp at h
  rw [components_eq] at hlast
  rcases List.eq_nil_or_concat (names p) with hnil | ⟨init, m, hm⟩
  · have hfront : ∀ c ∈ front p, c = .root ∨ c = .here := by
      unfold front
      split
      · simp
      · split <;> simp
    rw [hnil, List.map_nil, List.append_nil] at hlast
    rcases hfront _ (List.mem_of_getLast? hlast) with hc | hc <;> simp at hc
  · rw [hm] at hlast ⊢
    have hcomponent : component m = .name n := by simpa using hlast
    obtain ⟨hname, hne⟩ := component_of_not_up (n := m) (by simp [hcomponent])
    obtain rfl : m = n := by simpa [hcomponent, eq_comm] using hname
    exact ⟨init, by simp, hne⟩

end Path

namespace Disk

open TripleSlash.Path

theorem follow_of_not_says (h : d.follow here piece = .ok there) (hp : ¬ Says piece) :
    there = here := by
  have hsilent : piece = [] ∨ piece = ".".toList :=
    Classical.byContradiction fun hs => hp (not_or.mp hs)
  unfold follow at h
  split at h
  · rw [if_pos hsilent] at h
    exact (Except.ok.inj h).symm
  · simp at h
  · simp at h

theorem follow_of_says (h : d.follow here n = .ok there) (hn : Says n) (hup : n ≠ "..".toList) :
    there = here ++ [n] := by
  have hsilent : ¬ (n = [] ∨ n = ".".toList) := not_or.mpr hn
  unfold follow at h
  split at h
  · rw [if_neg hsilent, if_neg hup] at h
    split at h
    · exact (Except.ok.inj h).symm
    · simp at h
  · simp at h
  · simp at h

theorem foldlM_follow_cons (h : (piece :: ps).foldlM d.follow here = .ok there) :
    ∃ next, d.follow here piece = .ok next ∧ ps.foldlM d.follow next = .ok there := by
  rw [List.foldlM_cons] at h
  cases hnext : d.follow here piece with
  | error e => simp [hnext, bind, Except.bind] at h
  | ok next => exact ⟨next, rfl, by simpa [hnext, bind, Except.bind] using h⟩

/-- Pieces that say nothing lead nowhere else. -/
theorem foldlM_follow_says (h : ps.foldlM d.follow here = .ok there) :
    (ps.filter (Says ·)).foldlM d.follow here = .ok there := by
  induction ps generalizing here with
  | nil => exact h
  | cons piece ps ih =>
    obtain ⟨next, hnext, hrest⟩ := foldlM_follow_cons h
    by_cases hp : Says piece
    · rw [List.filter_cons_of_pos (by simpa using hp), List.foldlM_cons, hnext]
      exact ih hrest
    · rw [List.filter_cons_of_neg (by simpa using hp)]
      obtain rfl := follow_of_not_says hnext hp
      exact ih hrest

/-- Names lead down, one after the other. -/
theorem foldlM_follow_names (h : ps.foldlM d.follow here = .ok there)
    (hps : ∀ n ∈ ps, Says n ∧ n ≠ "..".toList) : there = here ++ ps := by
  induction ps generalizing here with
  | nil => simpa [pure, Except.pure, eq_comm] using h
  | cons n ps ih =>
    obtain ⟨next, hnext, hrest⟩ := foldlM_follow_cons h
    obtain ⟨hn, hup⟩ := hps n (by simp)
    obtain rfl := follow_of_says hnext hn hup
    rw [ih hrest fun m hm => hps m (by simp [hm])]
    simp

theorem foldlM_names (h : d.locate p = .ok here) :
    (names p).foldlM d.follow (d.start p) = .ok here := by
  unfold locate at h
  split at h
  · simp at h
  · exact foldlM_follow_says h

/-- A path that goes up nowhere leads from its start along its names. -/
theorem location_eq (h : d.locate p = .ok here) (hp : ¬ GoesUp p) : here = d.start p ++ names p :=
  foldlM_follow_names (foldlM_names h) fun _ hn => names_of_not_goesUp hp hn

/-- Two paths that lead to one node, and go up nowhere, say the same if they begin alike. -/
theorem components_of_location (hp : d.locate p = .ok here) (hq : d.locate q = .ok here)
    (hpup : ¬ GoesUp p) (hqup : ¬ GoesUp q) (hfront : front p = front q) :
    components p = components q := by
  have hstart : d.start p = d.start q := by rw [start, start, isAbsolute_of_front hfront]
  have hnames : d.start p ++ names p = d.start q ++ names q :=
    (location_eq hp hpup).symm.trans (location_eq hq hqup)
  rw [hstart] at hnames
  rw [components_eq, components_eq, hfront, List.append_cancel_left hnames]

/-- The name of the file that a path is about is the name of the node where the path leads. -/
theorem location_of_fileName? (h : d.locate p = .ok here) (hn : fileName? p = some n) :
    ∃ dir, here = dir ++ [n] := by
  obtain ⟨init, hnames, hup⟩ := names_of_fileName? hn
  have hvoice : Says n := by
    have hmem : n ∈ names p := by simp [hnames]
    simpa using (List.mem_filter.mp hmem).2
  have hfold := foldlM_names h
  rw [hnames, List.foldlM_append] at hfold
  cases hdir : init.foldlM d.follow (d.start p) with
  | error e => simp [hdir, bind, Except.bind] at hfold
  | ok dir =>
    rw [hdir] at hfold
    obtain ⟨next, hnext, hlast⟩ := foldlM_follow_cons hfold
    obtain rfl : next = here := Except.ok.inj hlast
    exact ⟨dir, follow_of_says hnext hvoice hup⟩

end Disk
end TripleSlash
