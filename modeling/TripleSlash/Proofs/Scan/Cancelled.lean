import TripleSlash.Document.Line
import TripleSlash.Proofs.Scan.Foresight

/-! Passes that are cancelled. A pass looks at its flag in front of each line. It ends at the first
line in front of which the flag is set, and has no edits then; a flag that is set too late, or
never, makes no difference. -/
namespace TripleSlash.Scan

variable {o : Options} {stop : Nat → Bool} {s : State} {i k total : Nat} {lines : List Text}

/-- What a pass over `total` lines reports of the next `n` lines when `i` are done. -/
def reportsFrom (total i n : Nat) : List (Nat × Nat) := (List.range' (i + 1) n).map (·, total)

/-- What a pass over `total` lines reports of the first `n`. -/
def reports (total n : Nat) : List (Nat × Nat) := reportsFrom total 0 n

/-- The flag that becomes set when `k` lines are done, while the last of them is reported or, for
none, in front of the pass, and that stays set. -/
def setAt (k done : Nat) : Bool := k ≤ done

/-- The flag that is never set. -/
def unset (_ : Nat) : Bool := false

theorem reportsFrom_succ (total i n : Nat) :
    reportsFrom total i (n + 1) = (i + 1, total) :: reportsFrom total (i + 1) n := by
  simp [reportsFrom, List.range'_succ]

/-- A line in front of which the flag is not set is done and reported. -/
theorem runFrom_cons {line : Text} (h : stop i = false) :
    runFrom o stop total s i (line :: lines) =
      (runFrom o stop total (step o s i line).state (i + 1) lines).cons total i
        (step o s i line) := by
  simp [runFrom, h]

/-- A pass goes on as long as the flag is not set. -/
theorem runFrom_progress (hstop : ∀ m, i ≤ m → m < i + lines.length → stop m = false) :
    (runFrom o stop total s i lines).progress = reportsFrom total i lines.length := by
  induction lines generalizing s i with
  | nil => rfl
  | cons line lines ih =>
    have hhere : stop i = false := hstop i (Nat.le_refl i) (by simp)
    have hrest := ih (s := (step o s i line).state) (i := i + 1) fun m hm hlt =>
      hstop m (Nat.le_of_succ_le hm) (by simp only [List.length_cons]; omega)
    rw [runFrom_cons hhere, List.length_cons, reportsFrom_succ, Report.cons, hrest]

/-- A flag that is not set makes no difference. -/
theorem runFrom_unset (hstop : ∀ m, i ≤ m → m < i + lines.length → stop m = false) :
    runFrom o stop total s i lines = runFrom o unset total s i lines := by
  induction lines generalizing s i with
  | nil => rfl
  | cons line lines ih =>
    have hhere : stop i = false := hstop i (Nat.le_refl i) (by simp)
    have hrest := ih (s := (step o s i line).state) (i := i + 1) fun m hm hlt =>
      hstop m (Nat.le_of_succ_le hm) (by simp only [List.length_cons]; omega)
    rw [runFrom_cons hhere, runFrom_cons (show unset i = false from rfl), hrest]

/-- A pass ends in front of the first line where the flag is set. -/
theorem runFrom_set (hk : k < lines.length) (hstop : ∀ m, i ≤ m → m < i + k → stop m = false)
    (hset : stop (i + k) = true) :
    (runFrom o stop total s i lines).result = .error ⟨i + k⟩ ∧
      (runFrom o stop total s i lines).progress = reportsFrom total i k := by
  induction lines generalizing s i k with
  | nil => simp at hk
  | cons line lines ih =>
    cases k with
    | zero => simp [runFrom, show stop i = true from hset, reportsFrom]
    | succ k =>
      have hhere : stop i = false := hstop i (Nat.le_refl i) (by omega)
      have hbehind : i + 1 + k = i + (k + 1) := by omega
      obtain ⟨hresult, hprogress⟩ := ih (s := (step o s i line).state) (i := i + 1)
        (Nat.lt_of_succ_lt_succ hk) (fun m hm hlt => hstop m (by omega) (by omega))
        (hbehind ▸ hset)
      rw [runFrom_cons hhere, Report.cons, hresult, hprogress, hbehind, reportsFrom_succ]
      exact ⟨rfl, rfl⟩

/-- Beside its notices a whole pass tells nothing that its lines do not tell. -/
theorem run_result (o : Options) (stop : Nat → Bool) (lines : List Text) :
    (run o stop lines).result = (runFrom o stop lines.length .neutral 0 lines).result ∧
      (run o stop lines).progress = (runFrom o stop lines.length .neutral 0 lines).progress := by
  unfold run
  cases h : (runFrom o stop lines.length .neutral 0 lines).result <;> simp [h]

/-- A pass is cancelled as a whole or not at all. Where the flag is set in time, the pass says in
front of which line, has no edits, and has reported the lines above; otherwise it has all its edits
and has reported every line. -/
theorem run_cancelled (o : Options) (lines : List Text) (k : Nat) :
    (k < lines.length →
      (run o (setAt k) lines).result = .error ⟨k⟩ ∧
      (run o (setAt k) lines).edits = [] ∧
      (run o (setAt k) lines).progress = reports lines.length k) ∧
    (lines.length ≤ k → run o (setAt k) lines = run o unset lines) ∧
    (run o unset lines).result = .ok (edits o lines) ∧
    (run o unset lines).progress = reports lines.length lines.length := by
  have hearly : ∀ m, m < k → setAt k m = false := fun m hm => by simp [setAt, hm]
  refine ⟨fun hk => ?_, fun hk => ?_, ?_, ?_⟩
  · obtain ⟨hresult, hprogress⟩ := run_result o (setAt k) lines
    have hset : (runFrom o (setAt k) lines.length .neutral 0 lines).result = .error ⟨0 + k⟩ ∧
        (runFrom o (setAt k) lines.length .neutral 0 lines).progress =
          reportsFrom lines.length 0 k :=
      runFrom_set hk (fun m _ hm => hearly m (by omega)) (by simp [setAt])
    obtain ⟨herror, hreports⟩ := hset
    rw [herror, Nat.zero_add] at hresult
    exact ⟨hresult, by rw [Report.edits, hresult], hprogress.trans hreports⟩
  · have hsame : runFrom o (setAt k) lines.length .neutral 0 lines =
        runFrom o unset lines.length .neutral 0 lines :=
      runFrom_unset fun m _ hm => hearly m (by omega)
    rw [run, run, hsame]
  · rw [(run_result o unset lines).1, edits_eq_editsFrom]
    exact runFrom_result lines.length
  · rw [(run_result o unset lines).2]
    exact runFrom_progress fun m _ _ => rfl

/-- A parameter list that is open in front of its second line. -/
def wrappedLines : List Text := ["public void Run(int first,", "    int second)", "public class A"]

/-- Comments for what can be seen from outside, with carriage returns. -/
def returning : Options := ⟨.stock, .visible, .fillMissing, LineBreak.crlf.text⟩

theorem run_cancelled_wrappedLines :
    (1 < wrappedLines.length ∧ wrappedLines.length ≤ 3) ∧
      (run returning (setAt 1) wrappedLines).result = .error ⟨1⟩ ∧
      (run returning (setAt 1) wrappedLines).edits = [] ∧
      (run returning (setAt 1) wrappedLines).progress = [(1, 3)] ∧
      run returning (setAt 3) wrappedLines = run returning unset wrappedLines := by
  obtain ⟨hresult, hedits, hprogress⟩ := (run_cancelled returning wrappedLines 1).1 (by decide)
  exact ⟨by decide, hresult, hedits, hprogress,
    (run_cancelled returning wrappedLines 3).2.1 (by decide)⟩

end TripleSlash.Scan
