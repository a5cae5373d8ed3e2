import Mathlib.Data.List.Nodup
import TripleSlash.Proofs.Scan.Placement

/-! Mode and access modifiers only choose among comments. A pass is followed beside the full one,
which writes a comment for every declaration that has a template: between any two lines both stand
in the same lists and above the same attributes, and the pass writes those comments of the full one
whose declarations it is to document. -/
namespace TripleSlash

/-- Whether an edit puts something in. -/
def Edit.isInsert : Edit → Bool
  | insert _ _ => true
  | delete _ => false

namespace Scan

variable {o o' : Options} {s s' : State} {lines : List Text} {i j : Nat} {d : Declaration}
  {line : Text} {c : Nat × Edit}

/-- What a state says of the lines above it, whoever gets a comment. -/
def State.outlook (s : State) : Bool × Option Nat × Option Nat :=
  (s.afterComment, s.attributesAt, s.openList.map OpenList.depth)

/-- The line of the declaration whose comment the line at `i` would finish. -/
def State.declaring (s : State) (i : Nat) : Nat :=
  match s.openList with
  | some (.commented p) => p.declaredAt
  | _ => i

/-- The comment that a line finishes, with the line of its declaration. -/
def credit (o : Options) (s : State) (i : Nat) (line : Text) : List (Nat × Edit) :=
  ((step o s i line).edits.filter Edit.isInsert).map (s.declaring i, ·)

/-- The comments that some lines finish. -/
def credits (o : Options) : State → Nat → List Text → List (Nat × Edit)
  | _, _, [] => []
  | s, i, line :: lines => credit o s i line ++ credits o (step o s i line).state (i + 1) lines

/-- The comments of a pass, each with the line of its declaration. -/
def comments (o : Options) (lines : List Text) : List (Nat × Edit) := credits o .neutral 0 lines

theorem map_snd_credits (s : State) (i : Nat) (lines : List Text) :
    (credits o s i lines).map Prod.snd = (editsFrom o s i lines).filter Edit.isInsert := by
  induction lines generalizing s i with
  | nil => rfl
  | cons line lines ih => simp [credits, credit, editsFrom, ih, Function.comp_def]

theorem credit_eq : credit o s i line = (step o s i line).inserted?.toList.map
    fun text => (s.declaring i, .insert (s.anchor?.getD i) text) := by
  have hdeletion : (deletion o i line).filter Edit.isInsert = [] := by
    unfold deletion
    split <;> rfl
  rw [credit, step_edits, List.filter_append, hdeletion]
  cases (step o s i line).inserted? <;> rfl

theorem credit_eq_nil (h : (step o s i line).inserted? = none) : credit o s i line = [] := by
  simp [credit_eq, h]

/-! Each declaration gets one comment at most. -/

/-- Behind a line only the declaration at the line may wait for its comment, or one that has waited
already; behind a comment none waits. -/
theorem waits_step (h : (step o s j line).state.Waits i) :
    (step o s j line).inserted? = none ∧ (i = j ∨ s.Waits i) := by
  generalize hr : step o s j line = r at h
  cases hr ▸ step_case o s j line with
  | comment hc => exact absurd h (waits_of_rest rfl)
  | finished hc hl hf => exact absurd h (waits_of_rest rfl)
  | @pending p hc hl hf =>
    obtain ⟨q, hq, rfl⟩ := h
    obtain rfl : p.accept o.templates line = q := by simpa using hq
    exact ⟨rfl, .inr ⟨p, hl, rfl⟩⟩
  | closed hc hl hp => exact absurd h (waits_of_rest rfl)
  | unclosed hc hl hp => exact absurd h (waits_of_openList rfl rfl)
  | opening hc hl ha hd ht ho =>
    obtain ⟨q, hq, rfl⟩ := h
    obtain rfl := OpenList.commented.inj (Option.some.inj hq)
    exact ⟨rfl, .inl rfl⟩
  | whole hc hl ha hd ht ho => exact absurd h (waits_of_rest rfl)
  | skipped hc hl ha hd ht ho => exact absurd h (waits_of_openList rfl rfl)
  | passed hc hl ha hd ht ho => exact absurd h (waits_of_rest rfl)
  | other hc hl ha hd => exact absurd h (waits_of_rest rfl)
  | _ =>
    rename_i hc hl ha -- an attribute
    exact absurd h (waits_of_rest hl)

/-- A comment belongs to the declaration at its last line or to the one that has waited for it. -/
theorem credit_declared (h : c ∈ credit o s j line) : c.1 = j ∨ s.Waits c.1 := by
  obtain ⟨e, -, rfl⟩ := List.mem_map.mp h
  cases hl : s.openList with
  | none => simp [State.declaring, hl]
  | some a =>
    cases a with
    | commented p => exact .inr ⟨p, hl, by simp [State.declaring, hl]⟩
    | bare depth => simp [State.declaring, hl]

theorem credits_declared {rest : List Text} (h : c ∈ credits o s j rest) :
    j ≤ c.1 ∨ s.Waits c.1 := by
  induction rest generalizing s j with
  | nil => simp [credits] at h
  | cons line rest ih =>
    rcases List.mem_append.mp h with h | h
    · rcases credit_declared h with heq | hw
      · exact .inl (Nat.le_of_eq heq.symm)
      · exact .inr hw
    · rcases ih h with hle | hw
      · exact .inl (Nat.le_of_succ_le hle)
      · rcases (waits_step hw).2 with heq | hw
        · exact .inl (Nat.le_of_eq heq.symm)
        · exact .inr hw

theorem credits_sorted {rest : List Text} (hs : ∀ i, s.Waits i → i < j) :
    (credits o s j rest).Pairwise (·.1 < ·.1) := by
  induction rest generalizing s j with
  | nil => exact .nil
  | cons line rest ih =>
    rw [credits, List.pairwise_append]
    refine ⟨?_, ih fun i hi => ?_, fun a ha b hb => ?_⟩
    · rw [credit_eq]
      cases (step o s j line).inserted? <;> simp
    · rcases (waits_step hi).2 with rfl | hw
      · exact Nat.lt_succ_self i
      · exact Nat.lt_succ_of_lt (hs i hw)
    · have hle : a.1 ≤ j := by
        rcases credit_declared ha with heq | hw
        · exact Nat.le_of_eq heq
        · exact Nat.le_of_lt (hs a.1 hw)
      rcases credits_declared hb with hb | hw
      · omega
      · have hnone := credit_eq_nil (waits_step hw).1
        simp [hnone] at ha

theorem comments_unique {a b : Edit} (ha : (i, a) ∈ comments o lines)
    (hb : (i, b) ∈ comments o lines) : a = b := by
  have hsorted : (comments o lines).Pairwise (·.1 < ·.1) :=
    credits_sorted fun i hw => absurd hw (waits_of_rest rfl)
  have hdistinct : ((comments o lines).map Prod.fst).Nodup :=
    List.pairwise_map.mpr (hsorted.imp Nat.ne_of_lt)
  exact congrArg Prod.snd (List.inj_on_of_nodup_map hdistinct ha hb rfl)

/-! The full pass, and what another one has of it. -/

/-- The same pass, but for every modifier and without regard to comments that are there. -/
def Options.full (o : Options) : Options :=
  { o with mode := .regenerate, documented := AccessSet.ofList Access.all }

/-- The declaration at `i` is one that a pass is to document, as far as modifiers and comments
above it tell. -/
def Admits (o : Options) (lines : List Text) (i : Nat) : Prop :=
  ∃ d, Declares lines i d ∧ o.documented.contains d.access = true ∧
    (o.mode = .fillMissing → ¬ Documented lines i)

theorem Declares.admits (h : Declares lines i d) : Admits o lines i ↔
    o.documented.contains d.access = true ∧ (o.mode = .fillMissing → ¬ Documented lines i) := by
  constructor
  · rintro ⟨d', hd', hadmits⟩
    exact h.unique hd' ▸ hadmits
  · exact fun hadmits => ⟨d, h, hadmits⟩

theorem contains_full (o : Options) (a : Access) : o.full.documented.contains a = true := by
  cases a <;> rfl

theorem Declares.admits_full (h : Declares lines i d) : Admits o.full lines i :=
  h.admits.mpr ⟨contains_full o d.access, by simp [Options.full]⟩

theorem comment?_of_admits (h : AtRest lines j s) (hd : Declares lines j d)
    (ha : Admits o lines j) :
    comment? o s d = Comment.render? o.templates o.lineBreak d := by
  obtain ⟨henabled, hfree⟩ := hd.admits.mp ha
  have hskip : ¬ (o.mode = .fillMissing ∧ s.afterComment = true) := fun hskip =>
    hfree hskip.1 (h.documented.mp hskip.2)
  rw [comment?, if_neg hskip, if_pos henabled]

theorem comment?_of_not_admits (h : AtRest lines j s) (hd : Declares lines j d)
    (ha : ¬ Admits o lines j) : comment? o s d = none := by
  unfold comment?
  split
  · rfl
  next hskip =>
    split
    next henabled =>
      refine absurd (hd.admits.mpr ⟨henabled, fun hm hdoc => hskip ⟨hm, ?_⟩⟩) ha
      exact h.documented.mpr hdoc
    next => rfl

/-- The list behind a line that does not close it. -/
def OpenList.next (ts : Templates) (line : Text) : OpenList → OpenList
  | commented p => commented (p.accept ts line)
  | bare depth => bare (Parens.depthAfter depth line)

theorem step_of_unclosed {a : OpenList} (hc : isComment line = false) (hl : s.openList = some a)
    (h : Parens.closes a.depth line = false) :
    (step o s i line).state = { s with openList := some (a.next o.templates line) } := by
  cases a with
  | commented p =>
    have hf : p.finish? o.templates line = none := finish?_of_not_closes h
    simp [step, hc, hl, onListLine, hf, OpenList.next]
  | bare depth =>
    simp only [OpenList.depth, Parens.closes] at h
    cases hs : Parens.scan depth line with
    | unclosed deeper => simp [step, hc, hl, onListLine, hs, OpenList.next, Parens.depthAfter]
    | closed before rest => simp [hs] at h

theorem inserted?_of_closes {p : Comment.Pending} (hc : isComment line = false)
    (hl : s.openList = some (.commented p)) (h : Parens.closes p.depth line = true) :
    (step o s i line).inserted? = some (p.accept o.templates line).assembled := by
  have hf : p.finish? o.templates line = _ := finish?_of_closes h
  simp [step, hc, hl, onListLine, hf, Step.inserted?]

/-- A state beside one of the full pass: it differs at most in a comment that the full pass keeps
and the other one does not. -/
structure Follows (s s' : State) : Prop where
  outlook : s.outlook = s'.outlook
  pending : ∀ p, s.openList = some (.commented p) → s'.openList = some (.commented p)

theorem Follows.rest (h : Follows s s') (hl : s.openList = none) : s = s' := by
  obtain ⟨afterComment, attributesAt, openList⟩ := s
  obtain ⟨afterComment', attributesAt', openList'⟩ := s'
  obtain rfl : openList = none := hl
  have houtlook := h.outlook
  simp only [State.outlook, Option.map_none, Prod.mk.injEq] at houtlook
  obtain ⟨rfl, rfl, hnone⟩ := houtlook
  obtain rfl : openList' = none := Option.map_eq_none_iff.mp hnone.symm
  rfl

theorem follows_self (s : State) : Follows s s := ⟨rfl, fun _ hp => hp⟩

/-- The list of a state, and the list of the full pass beside it. -/
theorem Follows.list {a : OpenList} (h : Follows s s') (hl : s.openList = some a) :
    ∃ a', s'.openList = some a' ∧ a.depth = a'.depth ∧
      s' = { s with openList := some a' } ∧ (a.isBare = false → a = a') := by
  obtain ⟨afterComment, attributesAt, openList⟩ := s
  obtain ⟨afterComment', attributesAt', openList'⟩ := s'
  obtain rfl : openList = some a := hl
  have houtlook := h.outlook
  simp only [State.outlook, Option.map_some, Prod.mk.injEq] at houtlook
  obtain ⟨rfl, rfl, hdepth⟩ := houtlook
  obtain ⟨a', rfl, hdepth'⟩ := Option.map_eq_some_iff.mp hdepth.symm
  refine ⟨a', rfl, hdepth'.symm, rfl, fun hbare => ?_⟩
  cases a with
  | commented p => exact (Option.some.inj (h.pending p rfl)).symm
  | bare depth => simp [OpenList.isBare] at hbare

/-- Inside a list a pass keeps the comment of a declaration that it admits, if the full pass has
one. -/
theorem bare_of_admits {a a' : OpenList} (hk : InList o lines j s a)
    (hk' : InList o.full lines j s' a') (hbare : a'.isBare = false) :
    ∃ p, a' = .commented p ∧ (a.isBare = false ↔ Admits o lines p.declaredAt) := by
  obtain ⟨i, d, hopen, -, hwanted, -⟩ := hk.opener
  obtain ⟨i', d', hopen', -, hwanted', hplace⟩ := hk'.opener
  obtain ⟨rfl, rfl⟩ := hopen.unique hopen'
  cases a' with
  | bare depth => simp [OpenList.isBare] at hbare
  | commented p =>
    refine ⟨p, rfl, ?_⟩
    rw [(hplace p rfl).1, hwanted, hopen.declares.admits]
    have htemplate : d.kind.Templated := (hwanted'.mp rfl).template
    exact ⟨fun hw => ⟨hw.enabled, hw.undocumented⟩, fun hw => ⟨hw.1, htemplate, hw.2⟩⟩

/-- Inside a list that stays open both passes read on alike. -/
theorem follows_unclosed {a : OpenList} (hc : isComment line = false) (h : Follows s s')
    (hl : s.openList = some a) (hclose : Parens.closes a.depth line = false) :
    Follows (step o s j line).state (step o.full s' j line).state ∧
      ∀ c, c ∈ credit o s j line ↔ c ∈ credit o.full s' j line ∧ Admits o lines c.1 := by
  obtain ⟨a', hl', hdepth, hs', hsame⟩ := h.list hl
  have hclose' : Parens.closes a'.depth line = false := hdepth ▸ hclose
  rw [step_of_unclosed hc hl hclose, step_of_unclosed hc hl' hclose',
    credit_eq_nil (step_of_not_closes hc hl hclose).1,
    credit_eq_nil (step_of_not_closes hc hl' hclose').1]
  refine ⟨⟨?_, ?_⟩, by simp⟩
  · cases a <;> cases a' <;>
      simp_all [State.outlook, OpenList.next, OpenList.depth, Comment.Pending.accept]
  · intro p hp
    cases a with
    | bare depth => simp [OpenList.next] at hp
    | commented q =>
      obtain rfl := hsame rfl
      exact hp

/-- A list with a comment is credited with it where it closes. -/
theorem credit_of_closes {p : Comment.Pending} (hc : isComment line = false)
    (hl : s.openList = some (.commented p))
    (hclose : Parens.closes (OpenList.commented p).depth line = true) :
    credit o s j line =
      [(p.declaredAt, .insert p.insertAt (p.accept o.templates line).assembled)] := by
  rw [credit_eq, inserted?_of_closes hc hl hclose]
  simp [State.declaring, State.anchor?, hl]

/-- Where a list closes both passes go on alike, and the full one finishes the comment of a
declaration that the other one leaves out only where it does not admit the declaration. -/
theorem follows_closing {a : OpenList} (hc : isComment line = false)
    (hk : Knows o lines j s) (hk' : Knows o.full lines j s') (h : Follows s s')
    (hl : s.openList = some a) (hclose : Parens.closes a.depth line = true) :
    Follows (step o s j line).state (step o.full s' j line).state ∧
      ∀ c, c ∈ credit o s j line ↔ c ∈ credit o.full s' j line ∧ Admits o lines c.1 := by
  obtain ⟨a', hl', hdepth, hs', hsame⟩ := h.list hl
  have hclose' : Parens.closes a'.depth line = true := hdepth ▸ hclose
  obtain ⟨hstate, hnone⟩ := step_of_closes (o := o) (i := j) hc hl hclose
  obtain ⟨hstate', hnone'⟩ := step_of_closes (o := o.full) (i := j) hc hl' hclose'
  have hfollows : Follows (step o s j line).state (step o.full s' j line).state := by
    rw [hstate, hstate', hs']
    exact follows_self _
  refine ⟨hfollows, fun c => ?_⟩
  cases hbare' : a'.isBare with
  | true =>
    have hbare : a.isBare = true := by
      by_contra hne
      have heq := hsame (by simpa using hne)
      simp [heq, hbare'] at hne
    simp [credit_eq_nil (hnone.mpr hbare), credit_eq_nil (hnone'.mpr hbare')]
  | false =>
    obtain ⟨p, rfl, hadmits⟩ := bare_of_admits (hk.list a hl) (hk'.list a' hl') hbare'
    have hfull : credit o.full s' j line =
        [(p.declaredAt, .insert p.insertAt (p.accept o.templates line).assembled)] :=
      credit_of_closes hc hl' hclose'
    rw [hfull]
    cases hbare : a.isBare with
    | true =>
      rw [credit_eq_nil (hnone.mpr hbare)]
      have hnot : ¬ Admits o lines p.declaredAt := by simp [← hadmits, hbare]
      constructor
      · simp
      · rintro ⟨hc, ha⟩
        obtain rfl := List.mem_singleton.mp hc
        exact absurd ha hnot
    | false =>
      obtain rfl := hsame hbare
      rw [credit_of_closes hc hl hclose]
      refine ⟨fun hc => ⟨hc, ?_⟩, And.left⟩
      obtain rfl := List.mem_singleton.mp hc
      exact hadmits.mp hbare

theorem follows_list {a : OpenList} (hc : isComment line = false)
    (hk : Knows o lines j s) (hk' : Knows o.full lines j s') (h : Follows s s')
    (hl : s.openList = some a) :
    Follows (step o s j line).state (step o.full s' j line).state ∧
      ∀ c, c ∈ credit o s j line ↔ c ∈ credit o.full s' j line ∧ Admits o lines c.1 := by
  cases hclose : Parens.closes a.depth line with
  | false => exact follows_unclosed hc h hl hclose
  | true => exact follows_closing hc hk hk' h hl hclose

/-- At a declaration the full pass does what the other one does, if that one admits it, and
otherwise the other one only passes over the parameters. -/
theorem follows_declaration (hc : isComment line = false) (hl : s.openList = none)
    (ha : isAttribute line = false) (hd : Declares lines j d) (hline : lines[j]? = some line)
    (hk : AtRest lines j s) :
    Follows (step o s j line).state (step o.full s j line).state ∧
      ∀ c, c ∈ credit o s j line ↔ c ∈ credit o.full s j line ∧ Admits o lines c.1 := by
  have hrec := (hd.recognize? hline).2.2
  have hfull : comment? o.full s d = Comment.render? o.templates o.lineBreak d :=
    comment?_of_admits hk hd hd.admits_full
  by_cases hadmits : Admits o lines j
  · have hsame : step o s j line = step o.full s j line := by
      rw [step_of_declaration hc hl ha hrec, step_of_declaration hc hl ha hrec, onDeclaration,
        onDeclaration, hfull, comment?_of_admits hk hd hadmits]
      rfl
    refine ⟨hsame ▸ follows_self _, fun c => ?_⟩
    have hcredit : credit o s j line = credit o.full s j line := by rw [credit, credit, hsame]
    rw [hcredit]
    refine ⟨fun hc => ⟨hc, ?_⟩, And.left⟩
    rcases credit_declared hc with heq | hw
    · exact heq ▸ hadmits
    · exact absurd hw (waits_of_rest hl)
  · have hnone := comment?_of_not_admits hk hd hadmits
    have hcredit : credit o s j line = [] := by
      rw [credit, step_of_declaration hc hl ha hrec, onDeclaration, hnone]
      cases d.isOpen <;> rfl
    refine ⟨?_, fun c => ?_⟩
    · rw [step_of_declaration hc hl ha hrec, step_of_declaration hc hl ha hrec, onDeclaration,
        onDeclaration, hnone, hfull]
      cases hop : d.isOpen <;> cases Comment.render? o.templates o.lineBreak d <;>
        exact ⟨rfl, by simp [State.neutral]⟩
    · rw [hcredit]
      refine ⟨by simp, ?_⟩
      rintro ⟨hfull, hc⟩
      rcases credit_declared hfull with heq | hw
      · exact absurd (heq ▸ hc) hadmits
      · exact absurd hw (waits_of_rest hl)

theorem follows_step (hline : lines[j]? = some line) (hk : Knows o lines j s)
    (hk' : Knows o.full lines j s') (h : Follows s s') :
    Follows (step o s j line).state (step o.full s' j line).state ∧
      ∀ c, c ∈ credit o s j line ↔ c ∈ credit o.full s' j line ∧ Admits o lines c.1 := by
  cases hc : isComment line with
  | true =>
    rw [step_of_comment hc, step_of_comment hc, credit_eq_nil (inserted?_of_comment hc),
      credit_eq_nil (inserted?_of_comment hc)]
    exact ⟨follows_self _, by simp⟩
  | false =>
    cases hl : s.openList with
    | some a => exact follows_list hc hk hk' h hl
    | none =>
      obtain rfl := h.rest hl
      have hrest := hk.rest hl
      cases ha : isAttribute line with
      | true =>
        rw [credit, credit, step_of_attribute hc hl ha, step_of_attribute hc hl ha]
        exact ⟨follows_self _, by simp [onAttribute]⟩
      | false =>
        cases hd : Declaration.recognize? line with
        | some d =>
          exact follows_declaration hc hl ha ⟨hrest.free, line, hline, hc, ha, hd⟩ hline hrest
        | none =>
          rw [credit, credit, step_of_other hc hl ha hd, step_of_other hc hl ha hd]
          exact ⟨follows_self _, by simp⟩

/-- Over some lines a pass follows the full one and has those of its comments that it admits. -/
theorem follows_run {rest : List Text} (hrest : lines.drop j = rest) (hk : Knows o lines j s)
    (hk' : Knows o.full lines j s') (h : Follows s s') :
    (∀ n, Follows (after o s j (rest.take n)) (after o.full s' j (rest.take n))) ∧
      ∀ c, c ∈ credits o s j rest ↔ c ∈ credits o.full s' j rest ∧ Admits o lines c.1 := by
  induction rest generalizing s s' j with
  | nil => exact ⟨fun n => by simpa [after] using h, by simp [credits]⟩
  | cons line rest ih =>
    obtain ⟨hline, hdrop⟩ := getElem?_of_drop hrest
    obtain ⟨hstep, hcredit⟩ := follows_step hline hk hk' h
    obtain ⟨hafter, hcredits⟩ := ih hdrop (knows_step hline hk) (knows_step hline hk') hstep
    refine ⟨fun n => ?_, fun c => ?_⟩
    · cases n with
      | zero => exact h
      | succ n => exact hafter n
    · rw [credits, credits, List.mem_append, List.mem_append, hcredit, hcredits, or_and_right]

theorem follows_after (o : Options) (lines : List Text) (n : Nat) :
    Follows (after o .neutral 0 (lines.take n)) (after o.full .neutral 0 (lines.take n)) :=
  (follows_run rfl (knows_neutral o lines) (knows_neutral o.full lines) (follows_self _)).1 n

/-- A pass writes those comments of the full one whose declarations it admits. -/
theorem mem_comments : c ∈ comments o lines ↔ c ∈ comments o.full lines ∧ Admits o lines c.1 :=
  (follows_run rfl (knows_neutral o lines) (knows_neutral o.full lines) (follows_self _)).2 c

/-- The same pass in a mode and for some modifiers. -/
def Options.gate (o : Options) (mode : Mode) (documented : AccessSet) : Options :=
  { o with mode, documented }

theorem full_gate (o : Options) (mode : Mode) (documented : AccessSet) :
    (o.gate mode documented).full = o.full := rfl

/-- A comment that a gate lets through is that of the declaration, whatever the gate. -/
theorem comments_gate_unique {mode : Mode} {documented : AccessSet} {e e' : Edit}
    (h : (i, e) ∈ comments o lines) (h' : (i, e') ∈ comments (o.gate mode documented) lines) :
    e = e' :=
  comments_unique (mem_comments.mp h).1 (mem_comments.mp h').1

/-- A comment that a gate stops belongs to another modifier, or there is one already. -/
theorem comments_gate_missing {mode : Mode} {documented : AccessSet} (h : c ∈ comments o lines)
    (hnone : c ∉ comments (o.gate mode documented) lines) :
    ∃ d, Declares lines c.1 d ∧ (documented.contains d.access = false ∨
      mode = .fillMissing ∧ Documented lines c.1) := by
  obtain ⟨hfull, d, hd, -⟩ := mem_comments.mp h
  have hstopped : ¬ Admits (o.gate mode documented) lines c.1 := fun ha =>
    hnone (mem_comments.mpr ⟨hfull, ha⟩)
  rw [hd.admits] at hstopped
  refine ⟨d, hd, ?_⟩
  by_cases henabled : documented.contains d.access = true
  · right
    by_contra hfree
    exact hstopped ⟨henabled, fun hm hdoc => hfree ⟨hm, hdoc⟩⟩
  · exact .inl (by simpa using henabled)

/-- With fewer modifiers a pass writes the comments of those that are left. -/
theorem mem_comments_of_fewer {documented : AccessSet}
    (hmore : ∀ a, o.documented.contains a = true → documented.contains a = true) :
    c ∈ comments o lines ↔ c ∈ comments (o.gate o.mode documented) lines ∧
      ∃ d, Declares lines c.1 d ∧ o.documented.contains d.access = true := by
  rw [mem_comments, mem_comments (o := o.gate o.mode documented), full_gate]
  constructor
  · rintro ⟨hfull, d, hd, henabled, hfree⟩
    exact ⟨⟨hfull, d, hd, hmore _ henabled, hfree⟩, d, hd, henabled⟩
  · rintro ⟨⟨hfull, d, hd, -, hfree⟩, d', hd', henabled⟩
    obtain rfl := hd.unique hd'
    exact ⟨hfull, d, hd, henabled, hfree⟩

/-- To fill in what is missing is to write the comments of the declarations that have none. -/
theorem mem_comments_fillMissing :
    c ∈ comments (o.gate .fillMissing o.documented) lines ↔
      c ∈ comments (o.gate .regenerate o.documented) lines ∧ ¬ Documented lines c.1 := by
  rw [mem_comments, mem_comments (o := o.gate .regenerate o.documented), full_gate, full_gate]
  constructor
  · rintro ⟨hfull, d, hd, henabled, hfree⟩
    exact ⟨⟨hfull, d, hd, henabled, nofun⟩, hfree rfl⟩
  · rintro ⟨⟨hfull, d, hd, henabled, -⟩, hfree⟩
    exact ⟨hfull, d, hd, henabled, fun _ => hfree⟩

/-- Mode and modifiers of a pass change nothing but which declarations get their comments. -/
theorem gates_filter (o : Options) (mode : Mode) (documented : AccessSet) (lines : List Text) :
    (∀ n, (after o .neutral 0 (lines.take n)).outlook =
      (after (o.gate mode documented) .neutral 0 (lines.take n)).outlook) ∧
    ((comments o lines).map Prod.snd = (edits o lines).filter Edit.isInsert ∧
      ∀ c ∈ comments o lines, ∃ d, Declares lines c.1 d) ∧
    (∀ i e e', (i, e) ∈ comments o lines → (i, e') ∈ comments (o.gate mode documented) lines →
      e = e') ∧
    (∀ c ∈ comments o lines, c ∉ comments (o.gate mode documented) lines →
      ∃ d, Declares lines c.1 d ∧ (documented.contains d.access = false ∨
        mode = .fillMissing ∧ Documented lines c.1)) ∧
    ((∀ a, o.documented.contains a = true → documented.contains a = true) →
      ∀ c, c ∈ comments o lines ↔ c ∈ comments (o.gate o.mode documented) lines ∧
        ∃ d, Declares lines c.1 d ∧ o.documented.contains d.access = true) ∧
    ∀ c, c ∈ comments (o.gate .fillMissing o.documented) lines ↔
      c ∈ comments (o.gate .regenerate o.documented) lines ∧ ¬ Documented lines c.1 := by
  refine ⟨fun n => ?_, ⟨?_, fun c hc => ?_⟩, fun i e e' => comments_gate_unique,
    fun c => comments_gate_missing, fun hmore c => mem_comments_of_fewer hmore,
    fun c => mem_comments_fillMissing⟩
  · have hgate := follows_after (o.gate mode documented) lines n
    rw [full_gate] at hgate
    exact (follows_after o lines n).outlook.trans hgate.outlook.symm
  · rw [edits_eq_editsFrom]
    exact map_snd_credits .neutral 0 lines
  · obtain ⟨-, d, hd, -⟩ := mem_comments.mp hc
    exact ⟨d, hd⟩

end Scan
end TripleSlash
