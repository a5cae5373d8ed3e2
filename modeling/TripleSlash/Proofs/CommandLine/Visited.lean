import TripleSlash.CommandLine.Run
import TripleSlash.Proofs.Document.Written
import TripleSlash.Proofs.Files.Rewritten

/-! What a job does with files. Under every output it makes the same text of a file, since no pass
fails and no file that could be read refuses to be written; the outputs differ in where that text
goes. What is found out about a file does not depend on the files before it, as long as these are
other files. -/
namespace TripleSlash

/-- The text that a pass makes of another. -/
def Settings.revised (s : Settings) (mode : Mode) (t : Text) : Text := Line.join (s.rewrite mode t)

namespace CommandLine

namespace Job

variable {j : Job} {d : Disk} {p t : Text} {ps : List Text} {w next : Work}

/-- Whether a job makes another text of a file. -/
def changes (j : Job) (d : Disk) (p : Text) : Bool :=
  (d.read p).toOption.any fun t => j.settings.revised j.mode t ≠ t

/-- The plan for a file with a text. -/
def plan? (j : Job) (d : Disk) (p : Text) : Option Plan :=
  (d.read p).toOption.map fun t => ⟨p, (j.settings.pass j.mode t).edits⟩

/-- Work that a job has done with the files at some paths, and with all of them. -/
structure Done (j : Job) (d : Disk) (ps : List Text) (w : Work) : Prop where
  failed : w.failed = none
  disk_write : j.output = .write → Disk.Rewritten (j.settings.revised j.mode) ps d w.disk
  disk_read : j.output ≠ .write → w.disk = d
  printed : w.printed =
    if j.output = .print then (d.texts ps).flatMap (j.settings.revised j.mode) else []
  plans : w.plans = if j.output = .edits then ps.filterMap (j.plan? d) else []
  changes : w.changes = if j.output = .check then ps.filter (j.changes d) else []
  notes : ∀ n ∈ w.notes, n.level ≠ .plain

theorem done_nothing : j.Done d [] (.nothing d) where
  failed := rfl
  disk_write := fun _ => .nil
  disk_read := fun _ => rfl
  printed := by simp [Work.nothing, Disk.texts]
  plans := by simp [Work.nothing]
  changes := by simp [Work.nothing]
  notes := by simp [Work.nothing]

/-- A file without a text is left out. -/
theorem done_skipped {e : PathError} (h : d.read p = .error e) :
    j.Done d [p] { Work.nothing d with notes := [.skipped p e] } where
  failed := rfl
  disk_write := fun _ => Disk.rewritten_self (by simp [h])
  disk_read := fun _ => rfl
  printed := by simp [Work.nothing, Disk.texts, h, Except.toOption]
  plans := by simp [Work.nothing, plan?, h, Except.toOption]
  changes := by simp [Work.nothing, Job.changes, h, Except.toOption]
  notes := by simp [Note.level]

theorem level_scan {notices : List Scan.Notice} {n : Note} (hn : n ∈ notices.map .scan) :
    n.level ≠ .plain := by
  obtain ⟨notice, -, rfl⟩ := List.mem_map.1 hn
  simp [Note.level]

/-- A file is written back if its text changes. -/
theorem done_process_write (ho : j.output = .write) (h : d.read p = .ok t) :
    j.Done d [p] (j.process d p t) := by
  obtain ⟨here, hl, hn⟩ := Disk.read_eq_ok_iff.1 h
  have htext : (j.settings.pass j.mode t).text = .ok (j.settings.revised j.mode t) :=
    Settings.pass_text
  have hwrite : d.write? p (j.settings.revised j.mode t) = _ := Disk.write?_of_text hl hn
  simp only [process, htext, ho]
  split
  case isTrue heq =>
    have hsame : d.Rewritten (j.settings.revised j.mode) [p] d :=
      Disk.rewritten_self fun t' ht' => by
        obtain rfl : t = t' := by simpa [h] using ht'
        exact heq
    constructor <;> simp [Work.nothing, ho, hsame, Note.level]
  case isFalse hne =>
    have hnotes : ∀ n ∈ (j.settings.pass j.mode t).notices.map Note.scan ++ [.updated p],
        n.level ≠ .plain := by
      intro n hn
      rcases List.mem_append.1 hn with hn | hn
      · exact level_scan hn
      · obtain rfl : n = .updated p := by simpa using hn
        simp [Note.level]
    simp only [hwrite]
    constructor <;> simp [Work.nothing, ho, Disk.rewritten_put hl hn]
    simpa using hnotes

/-- What comes of a file with a text goes where the output of the job says. -/
theorem done_process (h : d.read p = .ok t) : j.Done d [p] (j.process d p t) := by
  have htext : (j.settings.pass j.mode t).text = .ok (j.settings.revised j.mode t) :=
    Settings.pass_text
  cases ho : j.output with
  | write => exact done_process_write ho h
  | check =>
    simp only [process, htext, ho]
    split <;> constructor <;>
      simp_all [Work.nothing, Note.level, Job.changes, Except.toOption]
  | print =>
    simp only [process, htext, ho]
    constructor <;> simp [Work.nothing, Note.level, Disk.texts, ho, h, Except.toOption]
  | edits =>
    simp only [process, htext, ho]
    constructor <;> simp [Work.nothing, Note.level, plan?, ho, h, Except.toOption]

theorem done_visit : j.Done d [p] (j.visit d p) := by
  unfold visit
  cases h : d.read p with
  | error e => exact done_skipped h
  | ok t => exact done_process h

/-- Paths lead where they led before. -/
theorem Done.alike (hw : j.Done d ps w) : d.Alike w.disk := by
  by_cases ho : j.output = .write
  · exact (hw.disk_write ho).alike
  · rw [hw.disk_read ho]
    exact .refl d

theorem Done.followedBy (hw : j.Done d [p] w) (hnext : j.Done w.disk ps next)
    (hp : ∀ q ∈ ps, d.locate p ≠ d.locate q) : j.Done d (p :: ps) (w.followedBy next) where
  failed := hnext.failed
  disk_write := fun ho => (hw.disk_write ho).cons (hnext.disk_write ho) hp
  disk_read := fun ho => (hnext.disk_read ho).trans (hw.disk_read ho)
  printed := by
    rw [Work.followedBy, hw.printed, hnext.printed]
    by_cases ho : j.output = .print
    · rw [if_pos ho, if_pos ho, if_pos ho, hw.disk_read (by simp [ho]), ← List.flatMap_append,
        ← Disk.texts_cons]
    · simp [ho]
  plans := by
    rw [Work.followedBy, hw.plans, hnext.plans]
    by_cases ho : j.output = .edits
    · rw [if_pos ho, if_pos ho, if_pos ho, hw.disk_read (by simp [ho]), ← List.filterMap_append]
      rfl
    · simp [ho]
  changes := by
    rw [Work.followedBy, hw.changes, hnext.changes]
    by_cases ho : j.output = .check
    · rw [if_pos ho, if_pos ho, if_pos ho, hw.disk_read (by simp [ho]), ← List.filter_append]
      rfl
    · simp [ho]
  notes := by
    intro n hn
    rcases List.mem_append.1 hn with hn | hn
    · exact hw.notes n hn
    · exact hnext.notes n hn

/-- What a job does with files one after the other. -/
theorem done_visitAll (h : d.Apart ps) : j.Done d ps (j.visitAll d ps) := by
  induction ps generalizing d with
  | nil => exact done_nothing
  | cons p ps ih =>
    obtain ⟨hp, hps⟩ := List.pairwise_cons.1 h
    have hvisit : j.Done d [p] (j.visit d p) := done_visit
    have hlater : (j.visit d p).disk.Apart ps := hps.imp fun hne => by
      rwa [hvisit.alike.locate, hvisit.alike.locate]
    have hrest := hvisit.followedBy (ih hlater) hp
    simpa [visitAll, hvisit.failed] using hrest

end Job
end CommandLine
end TripleSlash
