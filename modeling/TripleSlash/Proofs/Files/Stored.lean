import TripleSlash.Proofs.Files.Rewritten
import TripleSlash.Proofs.Files.Spelled

/-! A text that is written to a file is what the file then holds. The way to the file leads through
directories, and none of them is where the file is put. -/
namespace TripleSlash.Disk

variable {d d' : Disk} {p t : Text} {ps : List Text} {piece name : Text}
  {here dir there next : Location} {c : Content}

/-- A piece of a path leads out of a directory. -/
theorem directory_of_follow (h : d.follow there piece = .ok next) :
    d.node? there = some .directory := by
  unfold follow at h
  split at h
  next hn => exact hn
  · simp at h
  · simp at h

theorem isSome_put (h : (d.node? there).isSome) : ((d.put here c).node? there).isSome := by
  by_cases heq : there = here
  · subst heq
    by_cases hroot : there = []
    · simp [hroot, node?]
    · simp [node?_put_self hroot]
  · rwa [node?_put_of_ne heq]

/-- A file that is put where no directory is does not stand in the way. -/
theorem follow_put (hhere : d.node? here ≠ some .directory) (h : d.follow there piece = .ok next) :
    (d.put here c).follow there piece = .ok next := by
  have hdir := directory_of_follow h
  have hne : there ≠ here := by
    rintro rfl
    exact hhere hdir
  have hput : (d.put here c).node? there = some .directory := (node?_put_of_ne hne).trans hdir
  simp only [follow, hdir, hput] at h ⊢
  by_cases hsilent : piece = [] ∨ piece = ".".toList
  · rw [if_pos hsilent] at h ⊢
    exact h
  · rw [if_neg hsilent] at h ⊢
    by_cases hup : piece = "..".toList
    · rw [if_pos hup] at h ⊢
      exact h
    · rw [if_neg hup] at h ⊢
      split at h
      next hsome => rwa [if_pos (isSome_put hsome)]
      · simp at h

theorem foldlM_follow_put (hhere : d.node? here ≠ some .directory)
    (h : ps.foldlM d.follow there = .ok next) :
    ps.foldlM (d.put here c).follow there = .ok next := by
  induction ps generalizing there with
  | nil => exact h
  | cons piece ps ih =>
    obtain ⟨mid, hmid, hrest⟩ := foldlM_follow_cons h
    rw [List.foldlM_cons, follow_put hhere hmid]
    exact ih hrest

theorem locate_put (hhere : d.node? here ≠ some .directory) (h : d.locate p = .ok there) :
    (d.put here c).locate p = .ok there := by
  unfold locate at h ⊢
  split at h
  · simp at h
  next hp =>
    rw [if_neg hp]
    exact foldlM_follow_put hhere h

/-- A new name in a directory. -/
theorem follow_new (hdir : d.node? dir = some .directory)
    (hname : name ∉ [[], ".".toList, "..".toList]) :
    d.follow dir name = if (d.node? (dir ++ [name])).isSome then .ok (dir ++ [name])
      else .error .notFound := by
  simp only [List.mem_cons, List.not_mem_nil, or_false, not_or] at hname
  obtain ⟨hempty, hdot, hup⟩ := hname
  simp only [follow, hdir]
  rw [if_neg (not_or.mpr ⟨hempty, hdot⟩), if_neg hup]

/-- A path whose last piece is a name leads on from where the others lead. -/
theorem locate_eq_follow (hpieces : Path.pieces p = ps ++ [name]) (hname : name ≠ [])
    (hfold : ps.foldlM d.follow (d.start p) = .ok dir) : d.locate p = d.follow dir name := by
  have hp : ¬ p.isEmpty = true := by
    intro hempty
    obtain rfl := List.isEmpty_iff.mp hempty
    have hlast := congrArg List.getLast? hpieces
    simp [Path.pieces, Text.splitAtChars] at hlast
    exact hname hlast
  rw [locate, if_neg hp, hpieces, List.foldlM_append, hfold]
  change [name].foldlM d.follow dir = d.follow dir name
  rw [List.foldlM_cons]
  exact bind_pure _

/-- A new name is not there before, and the path leads to it afterwards. -/
theorem locate_put_new (hpieces : Path.pieces p = ps ++ [name])
    (hname : name ∉ [[], ".".toList, "..".toList])
    (hfold : ps.foldlM d.follow (d.start p) = .ok dir) (hdir : d.node? dir = some .directory)
    (hlocate : d.locate p = .error .notFound) :
    d.node? (dir ++ [name]) = none ∧
      (d.put (dir ++ [name]) c).locate p = .ok (dir ++ [name]) := by
  have hne : name ≠ [] := by
    rintro rfl
    exact hname List.mem_cons_self
  have hnone : d.node? (dir ++ [name]) = none := by
    rw [locate_eq_follow hpieces hne hfold, follow_new hdir hname] at hlocate
    split at hlocate
    · simp at hlocate
    next hnode => simpa using hnode
  have hnew : d.node? (dir ++ [name]) ≠ some .directory := by simp [hnone]
  have hdir' : (d.put (dir ++ [name]) c).node? dir = some .directory := by
    rw [node?_put_of_ne (by simp), hdir]
  have hthere : (d.put (dir ++ [name]) c).node? (dir ++ [name]) = some (.file c) :=
    node?_put_self (by simp)
  refine ⟨hnone, ?_⟩
  rw [locate_eq_follow hpieces hne (foldlM_follow_put hnew hfold), follow_new hdir' hname, hthere]
  rfl

/-- Where a text can be written there is no directory, and the path leads there afterwards. -/
theorem locate_put_of_place? (h : d.place? p = some here) :
    d.node? here ≠ some .directory ∧ (d.put here c).locate p = .ok here := by
  unfold place? at h
  split at h
  next there hlocate =>
    split at h
    · simp at h
    next hdir =>
      obtain rfl := Option.some.inj h
      exact ⟨hdir, locate_put hdir hlocate⟩
  next hlocate =>
    split at h
    next name dir hlast hfold =>
      split at h
      · simp at h
      next hname =>
        obtain rfl := Option.some.inj h
        obtain ⟨hname, hdir⟩ : name ∉ [[], ".".toList, "..".toList] ∧
            d.node? dir = some .directory := by
          simpa only [not_or, ne_eq, not_not] using hname
        have hpieces : Path.pieces p = (Path.pieces p).dropLast ++ [name] :=
          (List.dropLast_append_getLast? name hlast).symm
        obtain ⟨hnone, hthere⟩ := @locate_put_new d p _ name dir c hpieces hname hfold hdir hlocate
        exact ⟨by simp [hnone], hthere⟩
    · simp at h
  · simp at h

/-- What is written to a file is read from it. -/
theorem read_of_write? (h : d.write? p t = some d') : d'.read p = .ok t := by
  obtain ⟨here, hplace, rfl⟩ := Option.map_eq_some_iff.mp h
  obtain ⟨hdir, hlocate⟩ := @locate_put_of_place? d p here (.text t) hplace
  have hroot : here ≠ [] := by
    rintro rfl
    exact hdir rfl
  exact read_eq_ok_iff.mpr ⟨here, hlocate, node?_put_self hroot⟩

end TripleSlash.Disk
