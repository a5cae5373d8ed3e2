import TripleSlash.CommandLine.Reply
import TripleSlash.Proofs.CommandLine.Visited
import TripleSlash.Proofs.Files.Sorted

/-! The four outputs of one command on one disk. Only the plain run writes; the other outputs leave
the disk as it is and tell, each in its way, what the plain run makes of the files. -/
namespace TripleSlash.CommandLine

variable {d : Disk} {s : Settings} {mode : Mode} {output : Output} {config : Option Text}
  {verbose : Bool} {inputs files args : List Text} {input : Content} {n : Note}

/-! Notes -/

theorem runFiles_of_done {j : Job} {w : Work} (hf : expand d inputs = .ok files)
    (hw : j.visitAll d files = w) (hfailed : w.failed = none) :
    j.runFiles d inputs =
      ⟨w.disk, w.printed ++ if j.output = .edits then Plan.writeAll w.plans ++ ['\n'] else [],
        (settingsNotes j.settings ++ (expandFrom d inputs).2.1 ++ w.notes) ++
          w.changes.map .wouldChange,
        w.changes.isEmpty⟩ := by
  subst hw
  simp [Job.runFiles, hf, Job.report, hfailed]

/-- What the answers under the four outputs have to do with each other, for the source files that
the inputs stand for. -/
structure Agree (s : Settings) (mode : Mode) (files : List Text) (d : Disk)
    (answer : Output → Reply) : Prop where
  /-- The files are in order, and none is there in two spellings. -/
  sorted : files.Pairwise Path.Precedes
  write_status : (answer .write).status = 0
  /-- Each file with a text holds what a pass makes of it. -/
  write_text : ∀ p ∈ files, ∀ t, d.read p = .ok t →
    ∃ t', (s.pass mode t).text = .ok t' ∧ (answer .write).disk.read p = .ok t'
  /-- Nothing else is touched. -/
  write_rest : ∀ here, (∀ p ∈ files, ∀ t, d.read p = .ok t → d.locate p ≠ .ok here) →
    (answer .write).disk.node? here = d.node? here
  /-- Only the plain run writes. -/
  disk : ∀ output, output ≠ .write → (answer output).disk = d
  check_fails : (answer .check).status = 1 ↔
    ∃ here, (answer .write).disk.node? here ≠ d.node? here
  check_succeeds : (answer .check).status = 0 ↔
    ∀ here, (answer .write).disk.node? here = d.node? here
  /-- Behind what is logged the files are listed that the plain run changes. -/
  check_told : ∃ log, (∀ line ∈ log, ¬ "would change: ".toList <+: line) ∧
    (answer .check).told = log ++
      (files.filter fun p => ((answer .write).disk.read p).toOption ≠ (d.read p).toOption).map
        ("would change: ".toList ++ ·)
  print_status : (answer .print).status = 0
  /-- What the plain run leaves in the files is printed, one text after the other. -/
  print_printed : (answer .print).printed = ((answer .write).disk.texts files).flatten
  edits_status : (answer .edits).status = 0
  /-- One plan for each file with a text, whose edits give what the plain run leaves in it. -/
  edits_printed : ∃ plans, (answer .edits).printed = Plan.writeAll plans ++ ['\n'] ∧
    plans.map Plan.file = files.filter (fun p => (d.read p).isOk) ∧
    ∀ plan ∈ plans, ∃ t t', d.read plan.file = .ok t ∧
      Line.apply (Line.ofText t) plan.edits = .ok t' ∧
      (answer .write).disk.read plan.file = .ok t'

theorem expand_precedes (h : expand d inputs = .ok files) : files.Pairwise Path.Precedes := by
  unfold expand at h
  split at h
  · obtain rfl := Except.ok.inj h
    exact Search.sorted_precedes _
  · simp at h

/-- The plans are for the files with a text. -/
theorem plans_files (j : Job) (d : Disk) (files : List Text) :
    (files.filterMap (j.plan? d)).map Plan.file = files.filter fun p => (d.read p).isOk := by
  rw [List.map_filterMap, ← List.filterMap_eq_filter]
  refine List.filterMap_congr fun p _ => ?_
  cases ht : d.read p <;> simp [Job.plan?, ht, Except.toOption, Option.guard, Except.isOk,
    Except.toBool]

/-- A file, a file without a text, and a file in a directory. -/
def library : Disk where
  nodes := [
    (["A.cs".toList], .file (.text "public class A".toList)),
    (["B.cs".toList], .file (.bytes [0xff])),
    (["lib".toList], .directory),
    (["lib".toList, "C.cs".toList], .file (.text []))]
  cwd := []

def libraryFiles : List Text := ["A.cs", "B.cs", "lib/C.cs"]

end TripleSlash.CommandLine
