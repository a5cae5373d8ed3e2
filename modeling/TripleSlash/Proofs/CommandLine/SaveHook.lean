import TripleSlash.CommandLine.Reply
import TripleSlash.Proofs.CommandLine.Visited
import TripleSlash.Proofs.Files.Sorted

/-! The save hook. Whatever goes wrong, it succeeds and leaves the disk alone; where it does
something, it does what the command that it stands for does with the one file. -/
namespace TripleSlash.CommandLine

variable {d : Disk} {s : Settings} {mode : Mode} {config : Option Text} {verbose : Bool}
  {p t : Text} {files inputs args : List Text} {input : Content}

/-! The hook -/

/-- What it takes for the hook to do something with a file: settings that ask for it, and a source
file with a text. -/
structure Hooked (d : Disk) (config : Option Text) (p : Text) (s : Settings) (t : Text) : Prop where
  loads : loadSettings d config = .ok s
  asked : s.runOnSave = true
  source : Path.isSource p = true
  text : d.read p = .ok t

theorem onSave_success (d : Disk) (config : Option Text) (p : Text) :
    (onSave d config p).success = true := by
  unfold onSave
  split
  · rfl
  · dsimp only
    split
    · rfl
    · split
      · rfl
      · split <;> rfl

theorem onSave_disk (h : Hooked d config p s t) :
    (onSave d config p).disk = (Job.process ⟨s, s.saveMode, .write⟩ d p t).disk := by
  simp [onSave, h.loads, h.asked, h.source, h.text]

theorem onSave_disk_of_not_hooked (h : ∀ s t, ¬ Hooked d config p s t) :
    (onSave d config p).disk = d := by
  unfold onSave
  split
  · rfl
  case h_2 s hs =>
    dsimp only
    split
    · rfl
    case isFalse hr =>
      split
      · rfl
      case isFalse hp =>
        split
        · rfl
        case h_2 t ht => exact absurd ⟨hs, by simpa using hr, by simpa using hp, ht⟩ (h s t)

/-! The command that it stands for -/

theorem runFiles_disk {j : Job} (hf : expand d inputs = .ok files) :
    (j.runFiles d inputs).disk = (j.visitAll d files).disk := by
  simp only [Job.runFiles, hf, Job.report]
  split <;> rfl

theorem visitAll_one_disk (j : Job) : (j.visitAll d [p]).disk = (j.visit d p).disk := by
  simp only [Job.visitAll]
  split <;> rfl

/-- The path of a source file stands for this file, even where it reads like a pattern. -/
theorem expand_file (hfile : d.isFile p = true) (hp : Path.isSource p = true) :
    expand d [p] = .ok [p] := by
  simp [expand, expandFrom, expandInput, Search.Input.of, hfile, hp,
    Search.sorted_of_precedes (List.pairwise_singleton _ p)]

theorem reply_write_disk (h : Hooked d config p s t)
    (hargs : Invocation.parse args = .ok ⟨config, verbose, .generate mode .write [p]⟩) :
    (reply args d input).disk = (Job.process ⟨s, mode, .write⟩ d p t).disk := by
  have hfiles : expand d [p] = .ok [p] := expand_file (Disk.isFile_of_read h.text) h.source
  have hvisit : Job.visit ⟨s, mode, .write⟩ d p = Job.process ⟨s, mode, .write⟩ d p t := by
    simp [Job.visit, h.text]
  simp [reply, hargs, Invocation.run, generate, h.loads, runFiles_disk hfiles, visitAll_one_disk,
    hvisit]

/-- The hook succeeds and touches nothing but its file, this one only where it is asked to, and then
as the plain command for the file does. -/
theorem onSave_safe (hargs : Invocation.parse args = .ok ⟨config, verbose, .onSave p⟩) :
    (reply args d input).status = 0 ∧
    (∀ here, d.locate p ≠ .ok here → (reply args d input).disk.node? here = d.node? here) ∧
    ((∃ here, (reply args d input).disk.node? here ≠ d.node? here) →
      ∃ s t, Hooked d config p s t) ∧
    ∀ s t, Hooked d config p s t →
      (∃ t', (s.pass s.saveMode t).text = .ok t' ∧ (reply args d input).disk.read p = .ok t') ∧
      ∀ plain verbose' input',
        Invocation.parse plain = .ok ⟨config, verbose', .generate s.saveMode .write [p]⟩ →
        (reply args d input).disk = (reply plain d input').disk := by
  have hdisk : (reply args d input).disk = (onSave d config p).disk := by
    simp [reply, hargs, Invocation.run]
  have hrewritten {s : Settings} {t : Text} (h : Hooked d config p s t) :
      d.Rewritten (s.revised s.saveMode) [p] (onSave d config p).disk := by
    have hdone : (⟨s, s.saveMode, .write⟩ : Job).Done d [p] _ := Job.done_process h.text
    rw [onSave_disk h]
    exact hdone.disk_write rfl
  rw [hdisk]
  refine ⟨?_, ?_, ?_, ?_⟩
  · simp [reply, hargs, Invocation.run, onSave_success]
  · intro here hne
    by_cases hhooked : ∃ s t, Hooked d config p s t
    · obtain ⟨s, t, h⟩ := hhooked
      exact (hrewritten h).other here (by simpa using hne)
    · rw [onSave_disk_of_not_hooked fun s t h => hhooked ⟨s, t, h⟩]
  · rintro ⟨here, hne⟩
    by_contra hhooked
    rw [onSave_disk_of_not_hooked fun s t h => hhooked ⟨s, t, h⟩] at hne
    exact hne rfl
  · intro s t h
    refine ⟨⟨s.revised s.saveMode t, Settings.pass_text, ?_⟩, ?_⟩
    · rw [(hrewritten h).read (by simp), h.text]
      rfl
    · intro plain verbose' input' hplain
      rw [onSave_disk h, reply_write_disk h hplain]

/-- Settings that switch the hook on. -/
def hookSettings : Settings := { Settings.default with runOnSave := true }

/-- A source file, and a file with these settings. -/
def hookDisk : Disk where
  nodes := [
    ([defaultConfig], .file (.text "run_on_save = true".toList)),
    (["A.cs".toList], .file (.text "public class A".toList))]
  cwd := []

theorem onSave_safe_hookDisk :
    Hooked hookDisk none "A.cs".toList hookSettings "public class A".toList ∧
      (reply ["on-save", "A.cs"] hookDisk (.text [])).status = 0 ∧
      (reply ["on-save", "A.cs"] hookDisk (.text [])).disk =
        (reply ["missing", "A.cs"] hookDisk (.text [])).disk := by
  have hread : hookDisk.read defaultConfig = .ok "run_on_save = true".toList := rfl
  have hsettings : Settings.read? "run_on_save = true".toList = some hookSettings := by
    decide +kernel
  have hloads : loadSettings hookDisk none = .ok hookSettings := by
    simp only [loadSettings, readSettings, Disk.isFile_of_read hread, hread, hsettings, if_true]
  have hhooked : Hooked hookDisk none "A.cs".toList hookSettings "public class A".toList :=
    ⟨hloads, rfl, by decide +kernel, rfl⟩
  have hargs : Invocation.parse ["on-save", "A.cs"] =
      .ok ⟨none, false, .onSave "A.cs".toList⟩ := rfl
  obtain ⟨hstatus, -, -, hsame⟩ := onSave_safe (d := hookDisk) hargs
  exact ⟨hhooked, hstatus, (hsame _ _ hhooked).2 ["missing", "A.cs"] false (.text []) rfl⟩

end TripleSlash.CommandLine
