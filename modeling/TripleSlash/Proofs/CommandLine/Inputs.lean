import TripleSlash.Proofs.CommandLine.Outputs
import TripleSlash.Proofs.Files.Found

/-! The files that inputs stand for. Each of them is a source file, and no path is among them twice.
Paths are told apart by what they say and not by where they lead. So one file may be there under two
paths that begin in different ways, or of which one goes up; inputs that begin alike and go down
only find each file once. -/
namespace TripleSlash

open TripleSlash.Path Wildcard

variable {d : Disk} {p q t input : Text} {ps files inputs : List Text} {absolute : Bool}

namespace Search

/-- An input that goes down only: no piece of it finds the directory above, and if it is a file, it
does not begin with a dot. -/
structure Straight (absolute : Bool) (d : Disk) (input : Text) : Prop where
  begins : isAbsolute input = absolute
  down : ∀ piece ∈ pieces input, findsUp piece = false
  file : d.isFile input = true → front input ≠ [.here]

/-- A pattern that goes down only. -/
structure Descends (absolute : Bool) (t : Text) : Prop where
  begins : isAbsolute t = absolute
  down : ∀ piece ∈ pieces t, findsUp piece = false

theorem stays_of_down (h : ∀ piece ∈ pieces p, findsUp piece = false) : ¬ GoesUp p := fun hup =>
  absurd (h _ (goesUp_iff.mp hup)) (by decide)

theorem exists_of_mem_mapM {α β : Type} {f : α → Option β} {l : List α} {r : List β}
    (h : l.mapM f = some r) : ∀ b ∈ r, ∃ a ∈ l, f a = some b := by
  induction l generalizing r with
  | nil =>
    obtain rfl : [] = r := by simpa using h
    simp
  | cons a l ih =>
    simp only [List.mapM_cons, Option.pure_def, Option.bind_eq_bind, Option.bind_eq_some_iff,
      Option.some.injEq] at h
    obtain ⟨b, hb, rest, hrest, rfl⟩ := h
    intro c hc
    rcases List.mem_cons.mp hc with rfl | hc
    · exact ⟨a, by simp, hb⟩
    · obtain ⟨x, hx, hfx⟩ := ih hrest c hc
      exact ⟨x, by simp [hx], hfx⟩

/-- The parts of a pattern are read from its pieces. -/
theorem exists_piece {cs : List Wildcard.Component} (h : components? t = some cs) :
    ∀ c ∈ cs, ∃ piece ∈ pieces t, component? piece = some c := by
  intro c hc
  obtain ⟨piece, hpiece, hcomponent⟩ := exists_of_mem_mapM h c hc
  refine ⟨piece, ?_, hcomponent⟩
  have hbody : piece ∈ pieces (if isAbsolute t then t.drop 1 else t) := by
    by_cases hslash : 1 < (pieces (if isAbsolute t then t.drop 1 else t)).length ∧
        (pieces (if isAbsolute t then t.drop 1 else t)).getLast? = some []
    · rw [if_pos hslash] at hpiece
      exact List.dropLast_subset _ hpiece
    · rwa [if_neg hslash] at hpiece
  cases habsolute : isAbsolute t with
  | false => rwa [habsolute] at hbody
  | true =>
    obtain ⟨body, rfl⟩ : ∃ body, t = '/' :: body := by
      cases t with
      | nil => simp [isAbsolute] at habsolute
      | cons a body => exact ⟨body, by simpa [isAbsolute] using habsolute⟩
    rw [habsolute] at hbody
    rw [pieces_cons, if_pos rfl]
    exact List.mem_cons_of_mem _ hbody

theorem leads_paths? (hd : d.Wellnamed) (ht : Descends absolute t) (h : paths? d t = some ps)
    (hp : p ∈ ps) : Leads absolute p := by
  simp only [paths?, bind, Option.bind_eq_some_iff, pure, Option.some.injEq] at h
  obtain ⟨cs, hcs, hps⟩ := h
  have hfound : p ∈ extend d cs (if isAbsolute t then "/" else ".") := by
    rw [← hps] at hp
    split at hp
    · exact (List.mem_filter.mp hp).1
    · exact hp
  refine leads_extend hd (fun c hc => ?_) ?_ hfound
  · obtain ⟨piece, hpiece, hcomponent⟩ := exists_piece hcs c hc
    exact tame_of_component? hcomponent (not_slash_of_mem_pieces hpiece) (ht.down piece hpiece)
  · rw [ht.begins]
    cases absolute with
    | true => exact ⟨by decide, by rw [goesUp_iff]; decide, .inl rfl⟩
    | false => exact ⟨by decide, by rw [goesUp_iff]; decide, .inr ⟨rfl, rfl⟩⟩

/-- The pattern for a directory. -/
theorem descends_directory (hne : input ≠ []) (h : Straight absolute d input) : Descends absolute
    ((input.reverse.dropWhile (· == '/')).reverse ++ "/**/*.cs".toList) := by
  obtain ⟨front, slashes, hfront, hinput, hslashes⟩ : ∃ front slashes,
      front = (input.reverse.dropWhile (· == '/')).reverse ∧ input = front ++ slashes ∧
        ∀ c ∈ slashes, c = '/' := by
    refine ⟨_, (input.reverse.takeWhile (· == '/')).reverse, rfl, ?_, fun c hc => ?_⟩
    · rw [← List.reverse_append, List.takeWhile_append_dropWhile, List.reverse_reverse]
    · simpa using List.all_eq_true.mp List.all_takeWhile c (List.mem_reverse.mp hc)
  rw [← hfront]
  have hpattern : pieces (front ++ "/**/*.cs".toList) =
      pieces front ++ ["**".toList, "*.cs".toList] :=
    pieces_slash front "**/*.cs".toList
  have hpieces : pieces front ⊆ pieces input := by
    rw [hinput]
    cases slashes with
    | nil => simp
    | cons c slashes =>
      obtain rfl : c = '/' := hslashes c (by simp)
      rw [pieces_slash]
      exact List.subset_append_left _ _
  refine ⟨?_, ?_⟩
  · rw [← h.begins, hinput]
    cases front with
    | nil =>
      cases slashes with
      | nil => exact absurd hinput hne
      | cons c slashes =>
        obtain rfl : c = '/' := hslashes c (by simp)
        rfl
    | cons c front => rfl
  · intro piece hpiece
    rw [hpattern, List.mem_append] at hpiece
    rcases hpiece with hpiece | hpiece
    · exact h.down piece (hpieces hpiece)
    · have hlast : ∀ piece ∈ ["**".toList, "*.cs".toList], findsUp piece = false := by decide
      exact hlast piece hpiece

theorem Input.source_of_file (h : Input.of d input = .file) :
    d.isFile input = true ∧ isSource input = true := by
  unfold Input.of at h
  split at h
  next hfile =>
    split at h
    next hsource => exact ⟨hfile, hsource⟩
    next => simp at h
  next => split at h <;> simp at h

theorem descends_of_pattern (hin : Straight absolute d input) (h : Input.of d input = .pattern t) :
    Descends absolute t := by
  unfold Input.of at h
  split at h
  next => split at h <;> simp at h
  next =>
    split at h
    next hdir =>
      obtain rfl := Input.pattern.inj h
      refine descends_directory ?_ hin
      rintro rfl
      simp [Disk.isDirectory, Disk.locate] at hdir
    next =>
      obtain rfl := Input.pattern.inj h
      exact ⟨hin.begins, hin.down⟩

end Search

namespace CommandLine

open Search

/-- An input stands for itself, if it is a source file, or for source files that its pattern
finds. -/
theorem mem_expandInput {notes : List Note} (h : expandInput d input = .ok (ps, notes))
    (hp : p ∈ ps) : (d.isFile p = true ∧ isSource p = true) ∧
      (p = input ∨ ∃ t found, Input.of d input = .pattern t ∧ paths? d t = some found ∧
        p ∈ found) := by
  unfold expandInput at h
  split at h
  next hof =>
    obtain ⟨rfl, -⟩ := Prod.mk.inj (Except.ok.inj h)
    obtain rfl : p = input := by simpa using hp
    exact ⟨Input.source_of_file hof, .inl rfl⟩
  next =>
    obtain ⟨rfl, -⟩ := Prod.mk.inj (Except.ok.inj h)
    simp at hp
  next t hof =>
    split at h
    next => simp at h
    next found hfound =>
      obtain ⟨rfl, -⟩ := Prod.mk.inj (Except.ok.inj h)
      obtain ⟨hmem, hsource⟩ := List.mem_filter.mp hp
      exact ⟨by simpa using hsource, .inr ⟨t, found, hof, hfound, hmem⟩⟩

/-- What a straight input stands for begins as the input does, and goes up nowhere. -/
theorem leads_expandInput {notes : List Note} (hd : d.Wellnamed) (hin : Straight absolute d input)
    (h : expandInput d input = .ok (ps, notes)) (hp : p ∈ ps) :
    front p = (if absolute then [.root] else []) ∧ ¬ GoesUp p := by
  obtain ⟨⟨hfile, hsource⟩, rfl | ⟨t, found, hof, hfound, hmem⟩⟩ := mem_expandInput h hp
  · refine ⟨?_, stays_of_down hin.down⟩
    have hdot := hin.file hfile
    have hbegins := hin.begins
    unfold front at hdot ⊢
    cases absolute <;> simp_all
  · -- a search may begin with a dot, but that dot leads to no source file
    have hleads : Leads absolute p := leads_paths? hd (descends_of_pattern hin hof) hfound hmem
    have hhere : components p ≠ [.here] := by
      intro hhere
      simp [isSource, fileName?, hhere] at hsource
    exact ⟨hleads.begins.resolve_right fun hb => hhere hb.2, hleads.stays⟩

theorem mem_expandFrom {notes : List Note} {f : Option Failure}
    (h : expandFrom d inputs = (ps, notes, f)) (hp : p ∈ ps) :
    ∃ input ∈ inputs, ∃ found notes, expandInput d input = .ok (found, notes) ∧ p ∈ found := by
  induction inputs generalizing ps notes with
  | nil =>
    obtain ⟨rfl, -⟩ := Prod.mk.inj h
    simp at hp
  | cons input inputs ih =>
    unfold expandFrom at h
    split at h
    next =>
      obtain ⟨rfl, -⟩ := Prod.mk.inj h
      simp at hp
    next found foundNotes hinput =>
      obtain ⟨rfl, hrest⟩ := Prod.mk.inj h
      obtain ⟨-, rfl⟩ := Prod.mk.inj hrest
      rcases List.mem_append.mp hp with hp | hp
      · exact ⟨input, by simp, found, foundNotes, hinput, hp⟩
      · obtain ⟨input', hmem, hfound⟩ := ih rfl hp
        exact ⟨input', by simp [hmem], hfound⟩

theorem mem_expand (h : expand d inputs = .ok files) (hp : p ∈ files) :
    ∃ input ∈ inputs, ∃ found notes, expandInput d input = .ok (found, notes) ∧ p ∈ found := by
  unfold expand at h
  split at h
  next found notes hfrom =>
    obtain rfl := Except.ok.inj h
    exact mem_expandFrom hfrom (List.mem_mergeSort.mp ((distinct_sublist _).subset hp))
  next => simp at h

/-- A job that prints does so for all files in order, even if one is there twice. -/
theorem printed_visitAll {j : Job} (ho : j.output = .print) (ps : List Text) :
    (j.visitAll d ps).failed = none ∧
      (j.visitAll d ps).printed = (d.texts ps).flatMap (j.settings.revised j.mode) := by
  induction ps with
  | nil => exact ⟨rfl, rfl⟩
  | cons p ps ih =>
    have hvisit : j.Done d [p] (j.visit d p) := Job.done_visit
    have hdisk : (j.visit d p).disk = d := hvisit.disk_read (by simp [ho])
    have hall : j.visitAll d (p :: ps) = (j.visit d p).followedBy (j.visitAll d ps) := by
      simp [Job.visitAll, hvisit.failed, hdisk]
    rw [hall]
    refine ⟨ih.1, ?_⟩
    rw [Work.followedBy, hvisit.printed, if_pos ho, ih.2, Disk.texts_cons d p ps,
      List.flatMap_append]

theorem printed_runFiles {s : Settings} {mode : Mode} (h : expand d inputs = .ok files) :
    (Job.runFiles ⟨s, mode, .print⟩ d inputs).printed =
      (d.texts files).flatMap (s.revised mode) := by
  obtain ⟨hfailed, hprinted⟩ :=
    printed_visitAll (j := ⟨s, mode, .print⟩) (d := d) rfl files
  simp [Job.runFiles, h, Job.report, hfailed, hprinted]

/-- A path leads to a file whose own name is the name of a source file. -/
def LeadsToSource (d : Disk) (p : Text) : Prop :=
  ∃ dir n c, d.locate p = .ok (dir ++ [n]) ∧ d.node? (dir ++ [n]) = some (.file c) ∧
    ".cs".toList <:+ n ∧ 3 < n.length

theorem leadsToSource (hfile : d.isFile p = true) (hsource : isSource p = true) :
    LeadsToSource d p := by
  obtain ⟨here, hlocate, hnode⟩ : ∃ here, d.locate p = .ok here ∧
      (d.node? here).any (· != .directory) = true := by
    unfold Disk.isFile at hfile
    split at hfile
    next here hlocate => exact ⟨here, hlocate, hfile⟩
    next => simp at hfile
  obtain ⟨c, hc⟩ : ∃ c, d.node? here = some (.file c) := by
    cases hnode' : d.node? here with
    | none => simp [hnode'] at hnode
    | some node =>
      cases node with
      | directory => simp [hnode'] at hnode
      | file c => exact ⟨c, rfl⟩
  obtain ⟨n, hn, hending, hlength⟩ : ∃ n, fileName? p = some n ∧ ".cs".toList <:+ n ∧
      3 < n.length := by
    simpa [isSource, Option.any_eq_true] using hsource
  obtain ⟨dir, rfl⟩ := Disk.location_of_fileName? hlocate hn
  exact ⟨dir, n, c, hlocate, hc, hending, hlength⟩

theorem leadsToSource_of_mem_expand (h : expand d inputs = .ok files) (hp : p ∈ files) :
    LeadsToSource d p := by
  obtain ⟨input, -, found, notes, hinput, hfound⟩ := mem_expand h hp
  obtain ⟨⟨hfile, hsource⟩, -⟩ := mem_expandInput hinput hfound
  exact leadsToSource hfile hsource

theorem expand_components (h : expand d inputs = .ok files) :
    files.Pairwise fun p q => components p ≠ components q :=
  (expand_precedes h).imp fun hpq heq => hpq.2 (congrArg (List.map Component.key) heq)

/-- A job meets each file once: what it makes of the file stands once in what is printed, and no two
of its plans, and no two of the changes that it tells, are about one file. -/
def MeetsOnce (j : Job) (d : Disk) (inputs files : List Text) : Prop :=
  ∃ w, j.Done d files w ∧ d.Apart (w.plans.map Plan.file) ∧ d.Apart w.changes ∧
    j.runFiles d inputs =
      ⟨w.disk, w.printed ++ if j.output = .edits then Plan.writeAll w.plans ++ ['\n'] else [],
        (settingsNotes j.settings ++ (expandFrom d inputs).2.1 ++ w.notes) ++
          w.changes.map .wouldChange,
        w.changes.isEmpty⟩

theorem meetsOnce (j : Job) (h : expand d inputs = .ok files) (ha : d.Apart files) :
    MeetsOnce j d inputs files := by
  have hw : j.Done d files (j.visitAll d files) := Job.done_visitAll ha
  refine ⟨_, hw, ?_, ?_, runFiles_of_done h rfl hw.failed⟩
  · rw [hw.plans]
    split
    · rw [plans_files]
      exact ha.sublist List.filter_sublist
    · exact .nil
  · rw [hw.changes]
    split
    · exact ha.sublist List.filter_sublist
    · exact .nil

/-- The files that inputs stand for. Each is a source file, and two of them can only be one file if
they begin in different ways or one of them goes up. Straight inputs that begin alike find each file
once, so that no job meets a file twice. -/
theorem expand_files (h : expand d inputs = .ok files) :
    (∀ p ∈ files, LeadsToSource d p) ∧
    (files.Pairwise fun p q => components p ≠ components q) ∧
    (files.Pairwise fun p q => d.locate p = d.locate q →
      front p ≠ front q ∨ GoesUp p ∨ GoesUp q) ∧
    (∀ absolute, d.Wellnamed → (∀ input ∈ inputs, Straight absolute d input) → d.Apart files) ∧
    (d.Apart files → ∀ j, MeetsOnce j d inputs files) := by
  have hsource : ∀ p ∈ files, LeadsToSource d p := fun p hp => leadsToSource_of_mem_expand h hp
  have hspelled : files.Pairwise fun p q => d.locate p = d.locate q →
      front p ≠ front q ∨ GoesUp p ∨ GoesUp q := by
    refine (expand_components h).imp_of_mem fun {p q} hp _ hne hlocate => ?_
    -- paths to one file that begin alike and go up nowhere would say the same
    by_contra hcon
    simp only [not_or, not_not] at hcon
    obtain ⟨hfront, hpup, hqup⟩ := hcon
    obtain ⟨dir, n, -, hlp, -⟩ := hsource p hp
    exact hne (Disk.components_of_location hlp (hlocate ▸ hlp) hpup hqup hfront)
  refine ⟨hsource, expand_components h, hspelled, ?_, fun ha j => meetsOnce j h ha⟩
  intro absolute hd hstraight
  refine hspelled.imp_of_mem fun {p q} hp hq hcase hlocate => ?_
  have hleads : ∀ p ∈ files, front p = (if absolute then [.root] else []) ∧ ¬ GoesUp p := by
    intro p hp
    obtain ⟨input, hmem, found, notes, hinput, hfound⟩ := mem_expand h hp
    exact leads_expandInput hd (hstraight input hmem) hinput hfound
  obtain ⟨hpfront, hpup⟩ := hleads p hp
  obtain ⟨hqfront, hqup⟩ := hleads q hq
  rcases hcase hlocate with hne | hup | hup
  · exact hne (hpfront.trans hqfront.symm)
  · exact hpup hup
  · exact hqup hup

/-- The library, with its first file and the file in its directory asked for twice. -/
theorem expand_files_library :
    expand library ["A.cs".toList, "?.cs".toList, "lib".toList, "lib//C.cs".toList] =
        .ok libraryFiles ∧
      (∀ p ∈ libraryFiles, LeadsToSource library p) ∧ library.Apart libraryFiles ∧
      ∀ j, MeetsOnce j library
        ["A.cs".toList, "?.cs".toList, "lib".toList, "lib//C.cs".toList] libraryFiles := by
  have hfound : expandFrom library
      ["A.cs".toList, "?.cs".toList, "lib".toList, "lib//C.cs".toList] =
      (["A.cs".toList, "A.cs".toList, "B.cs".toList, "lib/C.cs".toList, "lib//C.cs".toList],
        [], none) := by
    decide +kernel
  have hsorted : sorted ["A.cs".toList, "A.cs".toList, "B.cs".toList, "lib/C.cs".toList,
      "lib//C.cs".toList] = libraryFiles := by
    rw [sorted, List.mergeSort_of_pairwise (by decide +kernel)]
    rw [distinct, if_pos (by decide +kernel), distinct, if_neg (by decide +kernel), distinct,
      if_neg (by decide +kernel), distinct, if_pos (by decide +kernel), distinct]
    · rfl
    · simp
  have hfiles : expand library ["A.cs".toList, "?.cs".toList, "lib".toList, "lib//C.cs".toList] =
      .ok libraryFiles := by
    rw [expand, hfound]
    exact congrArg Except.ok hsorted
  have hnamed : library.Wellnamed := by
    unfold Disk.Wellnamed
    decide +kernel
  have hstraight : ∀ input ∈ ["A.cs".toList, "?.cs".toList, "lib".toList, "lib//C.cs".toList],
      Straight false library input := by
    simp only [List.forall_mem_cons]
    refine ⟨⟨?_, ?_, ?_⟩, ⟨?_, ?_, ?_⟩, ⟨?_, ?_, ?_⟩, ⟨?_, ?_, ?_⟩, by simp⟩ <;> decide +kernel
  obtain ⟨hsource, -, -, hapart, hjob⟩ := expand_files hfiles
  have ha : library.Apart libraryFiles := hapart false hnamed hstraight
  exact ⟨hfiles, hsource, ha, hjob ha⟩

/-- A disk with one file. -/
def single : Disk where
  nodes := [(["A.cs".toList], .file (.text "public class A\n".toList))]
  cwd := []

/-- A file that is asked for with and without a dot in front is there twice, and is printed
twice. -/
theorem expand_dotted :
    expand single ["./A.cs".toList, "A.cs".toList] = .ok ["./A.cs".toList, "A.cs".toList] ∧
      ¬ single.Apart ["./A.cs".toList, "A.cs".toList] ∧
      ∀ s mode, (Job.runFiles ⟨s, mode, .print⟩ single ["./A.cs".toList, "A.cs".toList]).printed =
        s.revised mode "public class A\n".toList ++ s.revised mode "public class A\n".toList := by
  have hfound : expandFrom single ["./A.cs".toList, "A.cs".toList] =
      (["./A.cs".toList, "A.cs".toList], [], none) := by
    decide +kernel
  have hfiles : expand single ["./A.cs".toList, "A.cs".toList] =
      .ok ["./A.cs".toList, "A.cs".toList] := by
    rw [expand, hfound]
    exact congrArg Except.ok (sorted_of_precedes (by decide +kernel))
  have htexts : single.texts ["./A.cs".toList, "A.cs".toList] =
      ["public class A\n".toList, "public class A\n".toList] := by
    decide +kernel
  refine ⟨hfiles, ?_, fun s mode => ?_⟩
  · unfold Disk.Apart
    decide +kernel
  · rw [printed_runFiles hfiles, htexts]
    simp only [List.flatMap_cons, List.flatMap_nil, List.append_nil]

end CommandLine
end TripleSlash
