import Mathlib.Data.List.Basic
import TripleSlash.Files.Disk

/-! Disks on which some files have got other texts. Nothing else about them differs, so paths lead
where they led before. -/
namespace TripleSlash

/-- A node with another text, if it holds one. -/
def Node.rewrite (f : Text → Text) : Node → Node
  | .file (.text t) => .file (.text (f t))
  | n => n

@[simp] theorem Node.rewrite_eq_directory {f : Text → Text} {n : Node} :
    n.rewrite f = .directory ↔ n = .directory := by
  unfold rewrite
  split <;> simp

namespace Disk

variable {f : Text → Text} {d d' d₁ d₂ : Disk} {p t : Text} {ps : List Text}
  {here other : Location} {c : Content}

/-! Reading and writing at locations -/

theorem read_eq_ok_iff :
    d.read p = .ok t ↔ ∃ here, d.locate p = .ok here ∧ d.node? here = some (.file (.text t)) := by
  unfold read
  cases hl : d.locate p with
  | error e => simp [bind, Except.bind]
  | ok here =>
    simp only [bind, Except.bind, Except.ok.injEq, exists_eq_left']
    split <;> simp_all [pure, Except.pure, throw, throwThe, MonadExceptOf.throw]

/-- The texts at some paths. Paths without a text are left out. -/
def texts (d : Disk) (ps : List Text) : List Text := ps.filterMap fun p => (d.read p).toOption

theorem texts_cons (d : Disk) (p : Text) (ps : List Text) :
    d.texts (p :: ps) = d.texts [p] ++ d.texts ps := by
  rw [texts, texts, texts, ← List.filterMap_append]
  rfl

/-- A file is below the root. -/
theorem ne_nil_of_file (h : d.node? here = some (.file c)) : here ≠ [] := by
  rintro rfl
  simp [node?] at h

/-- Where a text can be read, another can be written. -/
theorem write?_of_text (hl : d.locate p = .ok here) (hn : d.node? here = some (.file c)) :
    d.write? p t = some (d.put here (.text t)) := by
  simp [write?, place?, hl, hn]

/-- A path to a text is a path to a file. -/
theorem isFile_of_read (h : d.read p = .ok t) : d.isFile p = true := by
  obtain ⟨here, hl, hn⟩ := read_eq_ok_iff.1 h
  simp [isFile, hl, hn]

/-! Disks that differ in the contents of files only -/

/-- Disks with the same directories and the same files, whatever the files hold. -/
structure Alike (d d' : Disk) : Prop where
  cwd : d'.cwd = d.cwd
  isSome : ∀ here, (d'.node? here).isSome = (d.node? here).isSome
  directory : ∀ here, d'.node? here = some .directory ↔ d.node? here = some .directory

namespace Alike

theorem refl (d : Disk) : Alike d d := ⟨rfl, fun _ => rfl, fun _ => .rfl⟩

theorem follow (h : Alike d d') (here : Location) (piece : Text) :
    d'.follow here piece = d.follow here piece := by
  have hdir := h.directory here
  have hsome := h.isSome here
  simp only [Disk.follow, h.isSome (here ++ [piece])]
  cases hn : d.node? here with
  | none =>
    have hn' : d'.node? here = none := by simpa [hn] using hsome
    rw [hn']
  | some n =>
    obtain ⟨n', hn'⟩ := Option.isSome_iff_exists.1 (hsome.trans (by simp [hn]))
    rw [hn', hn] at hdir
    rw [hn']
    cases n <;> cases n' <;> simp_all

/-- Paths lead to the same places on both disks. -/
theorem locate (h : Alike d d') (p : Text) : d'.locate p = d.locate p := by
  have hfollow : d'.follow = d.follow := funext fun here => funext (h.follow here)
  have hstart : d'.start p = d.start p := by rw [Disk.start, Disk.start, h.cwd]
  rw [Disk.locate, Disk.locate, hfollow, hstart]

end Alike

/-! Rewriting the texts at some paths -/

/-- The texts of the files at some paths are rewritten by `f`, and all else stays as it is. -/
structure Rewritten (f : Text → Text) (ps : List Text) (d d' : Disk) : Prop where
  cwd : d'.cwd = d.cwd
  named : ∀ p ∈ ps, ∀ here, d.locate p = .ok here →
    d'.node? here = (d.node? here).map (Node.rewrite f)
  other : ∀ here, (∀ p ∈ ps, d.locate p ≠ .ok here) → d'.node? here = d.node? here

/-- Where no file has two of the paths. -/
def Apart (d : Disk) (ps : List Text) : Prop := ps.Pairwise fun p q => d.locate p ≠ d.locate q

theorem Rewritten.node? (h : Rewritten f ps d d') (here : Location) :
    d'.node? here = (d.node? here).map (Node.rewrite f) ∨ d'.node? here = d.node? here := by
  by_cases hnamed : ∃ p ∈ ps, d.locate p = .ok here
  · obtain ⟨p, hp, hl⟩ := hnamed
    exact .inl (h.named p hp here hl)
  · exact .inr (h.other here fun p hp hl => hnamed ⟨p, hp, hl⟩)

theorem Rewritten.alike (h : Rewritten f ps d d') : Alike d d' where
  cwd := h.cwd
  isSome := fun here => by rcases h.node? here with hn | hn <;> simp [hn]
  directory := fun here => by rcases h.node? here with hn | hn <;> simp [hn]

theorem Rewritten.nil : Rewritten f [] d d where
  cwd := rfl
  named := by simp
  other := fun _ _ => rfl

/-- One path after the other, as long as the later ones are about other files. -/
theorem Rewritten.cons (h₁ : Rewritten f [p] d d₁) (h₂ : Rewritten f ps d₁ d₂)
    (hp : ∀ q ∈ ps, d.locate p ≠ d.locate q) : Rewritten f (p :: ps) d d₂ where
  cwd := h₂.cwd.trans h₁.cwd
  named := by
    intro q hq here hl
    rcases List.mem_cons.1 hq with rfl | hqs
    · have hlater : d₂.node? here = d₁.node? here := by
        refine h₂.other here fun r hr hlr => hp r hr ?_
        rw [hl, ← hlr, h₁.alike.locate]
      rw [hlater, h₁.named q (by simp) here hl]
    · have hearlier : d₁.node? here = d.node? here :=
        h₁.other here fun r hr hlr => by
          obtain rfl : r = p := by simpa using hr
          exact hp q hqs (hlr.trans hl.symm)
      rw [h₂.named q hqs here ((h₁.alike.locate q).trans hl), hearlier]
  other := by
    intro here hne
    rw [h₂.other here fun q hq => by rw [h₁.alike.locate]; exact hne q (.tail _ hq),
      h₁.other here fun q hq => hne q (by simp_all)]

/-- A file that is written anew. -/
theorem rewritten_put (hl : d.locate p = .ok here) (hn : d.node? here = some (.file (.text t))) :
    Rewritten f [p] d (d.put here (.text (f t))) where
  cwd := rfl
  named := by
    intro q hq there hlq
    obtain rfl : q = p := by simpa using hq
    obtain rfl : here = there := by simpa [hl] using hlq
    rw [node?_put_self (ne_nil_of_file hn), hn]
    rfl
  other := by
    intro there hne
    exact node?_put_of_ne fun heq => hne p (by simp) (heq ▸ hl)

/-- A file that need not be written. -/
theorem rewritten_self (h : ∀ t, d.read p = .ok t → f t = t) : Rewritten f [p] d d where
  cwd := rfl
  named := by
    intro q hq here hl
    obtain rfl : q = p := by simpa using hq
    cases hn : d.node? here with
    | none => rfl
    | some n =>
      unfold Node.rewrite
      rcases n with _ | (t | bs)
      · rfl
      · simp [h t (read_eq_ok_iff.2 ⟨here, hl, hn⟩)]
      · rfl
  other := fun _ _ => rfl

namespace Rewritten

/-- What can be read afterwards. -/
theorem read (h : Rewritten f ps d d') (hp : p ∈ ps) : d'.read p = (d.read p).map f := by
  simp only [Disk.read, h.alike.locate]
  cases hl : d.locate p with
  | error e => rfl
  | ok here =>
    simp only [bind, Except.bind, h.named p hp here hl]
    rcases d.node? here with _ | _ | (t | bs) <;> rfl

theorem texts (h : Rewritten f ps d d') : d'.texts ps = (d.texts ps).map f := by
  rw [Disk.texts, Disk.texts, List.map_filterMap]
  refine List.filterMap_congr fun p hp => ?_
  rw [h.read hp]
  cases d.read p <;> rfl

end Rewritten
end Disk
end TripleSlash
