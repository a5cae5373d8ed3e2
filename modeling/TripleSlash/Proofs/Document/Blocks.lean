import TripleSlash.Proofs.Comment.Rendered
import TripleSlash.Proofs.Document.Written

/-! The comments of a pass are blocks of comment lines. So the lines that it writes are the lines
of the text that they make, and apart from comments they are the lines of the document. -/
namespace TripleSlash

open Comment

variable {br : LineBreak} {Q : Text → Prop}

namespace Scan

/-- Comments of these options are blocks that end their lines in `br`. -/
structure Options.Commenting (br : LineBreak) (o : Options) : Prop where
  templates : o.templates.Lined
  lineBreak : o.lineBreak = br.text

/-- A property that comments have when they are rendered, and keep when they get the parameters of
later lines. -/
structure Options.Ensures (Q : Text → Prop) (o : Options) : Prop where
  rendered : ∀ line d text, '\n' ∉ line → Declaration.recognize? line = some d →
    render? o.templates o.lineBreak d = some text → Q text
  completed : ∀ head entries, Q head → Flowing entries →
    Q (Text.replaceFirst marker entries head)

variable {o : Options} {s : State} {i : Nat} {line text : Text} {lines : List Text}
  {d : Declaration} {p : Pending}

theorem ensures_block (ho : o.Commenting br) : o.Ensures Block where
  rendered _ _ _ hl hd hr :=
    block_render? ho.templates hl (Declaration.recognize?_within hd) (ho.lineBreak ▸ hr)
  completed _ _ := block_replaceFirst

/-- A waiting comment has the property so far, and all its lines will be comments. -/
structure Waiting (Q : Text → Prop) (br : LineBreak) (p : Pending) : Prop where
  head : Q p.head
  entries : Flowing p.entries
  newline : ∃ indent, (∀ c ∈ indent, isIndent c = true) ∧
    p.newline = Comment.newline br.text indent

theorem waiting_accept (ho : o.Commenting br) (hl : '\n' ∉ line) (h : Waiting Q br p) :
    Waiting Q br (p.accept o.templates line) := by
  obtain ⟨indent, hi, hn⟩ := h.newline
  refine ⟨h.head, flowing_append h.entries ?_, indent, hi, hn⟩
  rw [hn]
  exact flowing_parameterEntries ho.templates hi
    (noFeed_of_isInfix hl (Parens.inside_prefix _ _).isInfix)

theorem ensures_finish? (ho : o.Commenting br) (hQ : o.Ensures Q) (hl : '\n' ∉ line)
    (h : Waiting Q br p) (hf : p.finish? o.templates line = some text) : Q text := by
  unfold Pending.finish? at hf
  split at hf
  · obtain rfl := Option.some.inj hf
    have ha := waiting_accept ho hl h
    exact hQ.completed _ _ ha.head ha.entries
  · simp at hf

theorem ensures_comment? (hQ : o.Ensures Q) (hl : '\n' ∉ line)
    (hd : Declaration.recognize? line = some d) (ht : comment? o s d = some text) : Q text :=
  hQ.rendered line d text hl hd (render?_of_comment? ht)

theorem waiting_start (ho : o.Commenting br) (hQ : o.Ensures Q) (hl : '\n' ∉ line)
    (hd : Declaration.recognize? line = some d) (ht : comment? o s d = some text) (a b : Nat) :
    Waiting Q br (Pending.start a b text d.rawParameters (newline o.lineBreak d.indent)) where
  head := ensures_comment? hQ hl hd ht
  entries := flowing_of_noFeed (by simp [Pending.start])
  newline := ⟨d.indent, indent_within (Declaration.recognize?_within hd), by
    simp [Pending.start, ho.lineBreak]⟩

/-- A comment that waits, if there is one, has the property so far. -/
def State.Sound (Q : Text → Prop) (br : LineBreak) (s : State) : Prop :=
  ∀ p, s.openList = some (.commented p) → Waiting Q br p

theorem sound_neutral : State.neutral.Sound Q br := by simp [State.Sound, State.neutral]

theorem sound_step (ho : o.Commenting br) (hQ : o.Ensures Q) (hl : '\n' ∉ line)
    (h : s.Sound Q br) : (step o s i line).state.Sound Q br := by
  generalize hr : step o s i line = r
  cases hr ▸ step_case o s i line with
  | pending hc hopen hf =>
    intro p hp
    obtain rfl : _ = p := by simpa using hp
    exact waiting_accept ho hl (h _ hopen)
  | opening hc hopen ha hd ht hop =>
    intro p hp
    obtain rfl : _ = p := by simpa using hp
    exact waiting_start ho hQ hl hd ht _ _
  | _ => simp_all [State.Sound, State.neutral, onComment, onAttribute]

theorem ensures_inserted? (ho : o.Commenting br) (hQ : o.Ensures Q) (hl : '\n' ∉ line)
    (h : s.Sound Q br) (ht : (step o s i line).inserted? = some text) : Q text := by
  generalize hr : step o s i line = r at ht
  cases hr ▸ step_case o s i line with
  | comment hc => simp [← hr, inserted?_of_comment hc] at ht
  | finished hc hopen hf =>
    obtain rfl : _ = text := by simpa [Step.inserted?] using ht
    exact ensures_finish? ho hQ hl (h _ hopen) hf
  | whole hc hopen ha hd hcomment hop =>
    obtain rfl : _ = text := by simpa [Step.inserted?] using ht
    exact ensures_comment? hQ hl hd hcomment
  | _ => simp [Step.inserted?, onAttribute] at ht

theorem ensures_owed (ho : o.Commenting br) (hQ : o.Ensures Q) (hl : ∀ line ∈ lines, '\n' ∉ line)
    (h : s.Sound Q br) (ht : owed o s i lines = some text) : Q text := by
  induction lines generalizing s i with
  | nil => simp [owed] at ht
  | cons line lines ih =>
    have hline := hl line (by simp)
    rw [owed_cons, Option.or_eq_some_iff] at ht
    rcases ht with ht | ⟨-, ht⟩
    · exact ensures_inserted? ho hQ hline h ht
    · unfold due at ht
      split at ht
      · exact ih (fun l hm => hl l (by simp [hm])) (sound_step ho hQ hline h) ht
      · simp at ht

/-- Comments that go above a line have the property. -/
theorem ensures_above (ho : o.Commenting br) (hQ : o.Ensures Q)
    (hl : ∀ line ∈ lines, '\n' ∉ line) (h : s.Sound Q br)
    (ht : above o s i lines = some text) : Q text := by
  unfold above at ht
  split at ht
  · simp at ht
  · exact ensures_owed ho hQ hl h ht

/-- Every comment of a pass has the property. -/
theorem ensures_placed {n : Nat} (ho : o.Commenting br) (hQ : o.Ensures Q)
    (hl : ∀ line ∈ lines, '\n' ∉ line) (h : s.Sound Q br)
    (ht : .insert n text ∈ placed o s i lines) : Q text := by
  induction lines generalizing s i with
  | nil => simp [placed] at ht
  | cons line lines ih =>
    simp only [placed, List.mem_append] at ht
    rcases ht with (ht | ht) | ht
    · obtain ⟨text', habove, he⟩ := List.mem_map.mp ht
      obtain ⟨-, rfl⟩ := Edit.insert.inj he
      exact ensures_above ho hQ hl h (Option.mem_toList.mp habove)
    · unfold deletion at ht
      split at ht <;> simp at ht
    · exact ih (fun l hm => hl l (by simp [hm])) (sound_step ho hQ (hl line (by simp)) h) ht

variable {doc : List Line} {l : Line}

theorem noFeed_of_proper (hp : Line.Proper doc) : ∀ line ∈ doc.map Line.text, '\n' ∉ line := by
  intro line hline
  obtain ⟨l, hl, rfl⟩ := List.mem_map.mp hline
  exact (Line.plain_of_mem hp hl).noFeed

/-- The lines of a comment that goes above a line. -/
theorem above_lines (ho : o.Commenting br) (hp : Line.Proper doc) (h : s.Sound Block br)
    (hl : l ∈ Line.ofText ((above o s i (doc.map Line.text)).getD [])) :
    isComment l.text = true ∧ l.Plain ∧ l.ending ≠ none := by
  cases ha : above o s i (doc.map Line.text) with
  | none => simp [ha, Line.ofText] at hl
  | some text =>
    rw [ha, Option.getD_some] at hl
    have hb := block_lines (ensures_above ho (ensures_block ho) (noFeed_of_proper hp) h ha) hl
    exact ⟨hb.1, Line.plain_of_mem_ofText hl, hb.2⟩

theorem proper_written (ho : o.Commenting br) (hp : Line.Proper doc) (h : s.Sound Block br) :
    Line.Proper (written o s i doc) := by
  induction doc generalizing s i with
  | nil => trivial
  | cons l doc ih =>
    have hrest := ih (i := i + 1) hp.2.2 (sound_step (i := i) ho (ensures_block ho) hp.1.noFeed h)
    rw [written, List.append_assoc]
    apply Line.proper_append fun l' hl' => (above_lines ho hp h hl').2
    unfold kept
    split
    · exact hrest
    · refine ⟨hp.1, fun hne => hp.2.1 ?_, hrest⟩
      rintro rfl
      exact hne rfl

/-- The written lines are read back. -/
theorem ofText_written (ho : o.Commenting br) (hp : Line.Proper doc) :
    Line.ofText (Line.join (written o .neutral 0 doc)) = written o .neutral 0 doc :=
  Line.ofText_join (proper_written ho hp sound_neutral)

theorem code_written (ho : o.Commenting br) (hp : Line.Proper doc) (h : s.Sound Block br) :
    (written o s i doc).filter (!isComment ·.text) = doc.filter (!isComment ·.text) := by
  induction doc generalizing s i with
  | nil => rfl
  | cons l doc ih =>
    have hrest := ih (i := i + 1) hp.2.2 (sound_step (i := i) ho (ensures_block ho) hp.1.noFeed h)
    have habove : (Line.ofText ((above o s i ((l :: doc).map Line.text)).getD [])).filter
        (!isComment ·.text) = [] := by
      apply List.filter_eq_nil_iff.mpr
      intro l' hl'
      simp [(above_lines ho hp h hl').1]
    have hkept : (kept o l).filter (!isComment ·.text) = [l].filter (!isComment ·.text) := by
      unfold kept
      split
      next hc => simp [hc.2]
      next => rfl
    rw [written, List.filter_append, List.filter_append, habove, hkept, hrest, List.nil_append,
      ← List.filter_append]
    rfl

/-- No line is taken out where comments are left alone. -/
theorem sublist_written (hm : o.mode = .fillMissing) : doc.Sublist (written o s i doc) := by
  induction doc generalizing s i with
  | nil => exact .slnil
  | cons l doc ih =>
    have hkept : kept o l = [l] := by simp [kept, hm]
    rw [written, hkept, List.append_assoc]
    exact (ih.cons_cons l).trans (List.sublist_append_right _ _)

end Scan

/-- A text without the lines that are comments. -/
def Text.code (t : Text) : Text := Line.join ((Line.ofText t).filter (!isComment ·.text))

namespace Settings

variable {s : Settings} {mode : Mode} {source : Text}

theorem commenting_options (h : s.templates.Commenting) (own : LineBreak) :
    (s.options mode own).Commenting (s.lineBreak own) := ⟨h.lined, rfl⟩

/-- The lines of the text that a pass makes are the lines that it writes. -/
theorem ofText_rewrite (h : s.templates.Commenting) :
    Line.ofText (Line.join (s.rewrite mode source)) = s.rewrite mode source :=
  Scan.ofText_written (commenting_options h _) (Line.proper_ofText source)

/-- A pass changes no line of code, nor a line break between them. Where it leaves comments alone
all lines stay. -/
theorem pass_code (h : s.templates.Commenting) (mode : Mode) (source : Text) :
    ∃ t, (s.pass mode source).text = .ok t ∧ t.code = source.code ∧
      (mode = .fillMissing → (Line.ofText source).Sublist (Line.ofText t)) := by
  refine ⟨_, pass_text, ?_, ?_⟩
  · rw [Text.code, ofText_rewrite h]
    exact congrArg Line.join (Scan.code_written (commenting_options h _)
      (Line.proper_ofText source) Scan.sound_neutral)
  · intro hm
    rw [ofText_rewrite h]
    exact Scan.sublist_written hm

/-- Lines with both line breaks, and a last line without one. -/
def mixed : Text := "/// Old.\r\npublic class A\n    public int B { get; }"

theorem pass_code_mixed :
    ∃ t, (default.pass .fillMissing mixed).text = .ok t ∧ t.code = mixed.code ∧
      (Mode.fillMissing = .fillMissing → (Line.ofText mixed).Sublist (Line.ofText t)) :=
  pass_code Templates.stock_commenting .fillMissing mixed

end Settings
end TripleSlash
