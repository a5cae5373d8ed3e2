import TripleSlash.Proofs.Document.Written
import TripleSlash.Proofs.Document.Breaks
import TripleSlash.Proofs.Document.Mapped
import TripleSlash.Proofs.Scan.Substituted

/-! Documents with line feeds, and the same documents with a carriage return in front of each. A
pass that follows the line break of its document makes the same of both, and mixes no line
breaks. -/
namespace TripleSlash

open Text

variable {σ : Char → Text} {s : Settings} {mode : Mode} {source t : Text} {doc : List Line}

namespace Text

/-- Puts a carriage return in front of a line feed. -/
def addReturn : Char → Text := inPlaceOf '\n' ['\r', '\n']

/-- The same text with a carriage return in front of every line feed. -/
def crlf (t : Text) : Text := t.subst addReturn

/-- Doubles a carriage return, so that a text stays the same only where it has none. -/
def doubleReturn : Char → Text := inPlaceOf '\r' ['\r', '\r']

theorem rebreaks_addReturn : Rebreaks addReturn :=
  rebreaks_inPlaceOf (.inl rfl) (.inr rfl) (by decide)

theorem rebreaks_doubleReturn : Rebreaks doubleReturn :=
  rebreaks_inPlaceOf (.inr rfl) (.inr rfl) (by decide)

theorem doubleReturn_of_ne {c : Char} (hc : c ≠ '\r') : doubleReturn c = [c] := if_neg hc

theorem length_le_doubleReturn (t : Text) : t.length ≤ (t.subst doubleReturn).length := by
  induction t with
  | nil => exact Nat.le_refl 0
  | cons c t ih =>
    have hone : 1 ≤ (doubleReturn c).length := by
      by_cases hc : c = '\r'
      · subst hc
        decide
      · rw [doubleReturn_of_ne hc]
        exact Nat.le_refl 1
    rw [subst_cons, List.length_append, List.length_cons]
    omega

theorem noReturn_of_doubleReturn (h : t.subst doubleReturn = t) : '\r' ∉ t := by
  induction t with
  | nil => simp
  | cons c t ih =>
    rw [subst_cons] at h
    by_cases hc : c = '\r'
    · subst hc
      have hlong := length_le_doubleReturn t
      have hlength : 2 + (Text.subst doubleReturn t).length = t.length + 1 := by
        rw [← List.length_cons, ← h, List.length_append]
        rfl
      omega
    · rw [doubleReturn_of_ne hc] at h
      exact List.not_mem_cons_of_ne_of_not_mem (Ne.symm hc) (ih (List.cons.inj h).2)

end Text

namespace Line

variable {lines : List Line} {l : Line} {g : Line → Line} {es : List Edit}

/-- The same line with the other line break. -/
def crlf (l : Line) : Line := { l with ending := l.ending.map fun _ => .crlf }

theorem cons_map_crlf {c : Char} (hf : c ≠ '\n') (hr : c ≠ '\r') (lines : List Line) :
    cons c (lines.map crlf) = (cons c lines).map crlf := by
  cases lines with
  | nil => simp [cons_nil hf, crlf]
  | cons l lines =>
    rw [List.map_cons, cons_cons hf fun h => absurd h hr, cons_cons hf fun h => absurd h hr]
    rfl

theorem ofText_crlf (hr : '\r' ∉ t) : ofText (Text.crlf t) = (ofText t).map crlf := by
  induction t with
  | nil => rfl
  | cons c t ih =>
    simp only [List.mem_cons, not_or] at hr
    have hrest := ih hr.2
    by_cases hc : c = '\n'
    · subst hc
      have hcut : ofText (Text.crlf ('\n' :: t)) = ⟨[], some .crlf⟩ :: ofText (Text.crlf t) :=
        ofText_break .crlf (Text.crlf t)
      rw [hcut, hrest]
      rfl
    · have hkept : Text.crlf (c :: t) = c :: Text.crlf t := by
        simp [Text.crlf, subst_cons, addReturn, inPlaceOf, hc]
      rw [hkept, ofText_cons, hrest, cons_map_crlf hc (Ne.symm hr.1), ofText_cons]

theorem text_map_crlf (lines : List Line) : (lines.map crlf).map text = lines.map text := by
  rw [List.map_map]
  rfl

theorem join_subst (hg : ∀ l ∈ lines, (g l).full = Text.subst σ l.full) :
    join (lines.map g) = Text.subst σ (join lines) := by
  induction lines with
  | nil => rfl
  | cons l lines ih =>
    rw [List.map_cons, join_cons, join_cons, subst_append, hg l (by simp),
      ih fun l' hl' => hg l' (by simp [hl'])]

theorem subst_eq_mapText : Edit.subst σ = Edit.mapText (Text.subst σ) := by
  funext e
  cases e <;> rfl

/-- Edits with other line breaks, applied to lines with these line breaks. -/
theorem apply_subst (hg : ∀ l ∈ doc, (g l).full = Text.subst σ l.full) :
    apply (doc.map g) (es.map (Edit.subst σ)) = (apply doc es).map (Text.subst σ) := by
  have hjoin : ∀ lines : List Line, lines ⊆ doc →
      join (lines.map g) = Text.subst σ (join lines) :=
    fun lines hlines => join_subst fun l hl => hg l (hlines hl)
  rw [subst_eq_mapText]
  refine apply_mapText ⟨fun n => hjoin _ (List.drop_subset n doc), fun m n t _ => ?_⟩
    fun _ _ _ _ => subst_append _ _
  rw [subst_append, hjoin _ (List.Subset.trans (List.drop_subset _ _) (List.take_subset _ _))]

/-- A character of a line is one of the document. -/
theorem full_subset (hl : l ∈ ofText t) : l.full ⊆ t := fun c hc => by
  rw [← join_ofText t]
  exact List.mem_flatMap.mpr ⟨l, hl, hc⟩

theorem alike_of_noReturn (hr : '\r' ∉ t) : Alike (ofText t) := by
  refine ⟨.lf, fun l hl he => ?_⟩
  have hfull := full_subset hl
  match hb : l.ending, he with
  | some .lf, _ => rfl
  | some .crlf, _ => exact absurd (hfull (by simp [full, hb, LineBreak.text])) hr

theorem alike_map_crlf (lines : List Line) : Alike (lines.map crlf) := by
  refine ⟨.crlf, fun l hl he => ?_⟩
  obtain ⟨l', -, rfl⟩ := List.mem_map.mp hl
  cases hb : l'.ending with
  | none => simp [crlf, hb] at he
  | some b => simp [crlf, hb]

theorem findSome?_of_feed (hf : '\n' ∈ t) (hr : '\r' ∉ t) :
    (ofText t).findSome? ending = some .lf := by
  cases hb : (ofText t).findSome? ending with
  | none => exact absurd hb (findSome?_ne_none hf)
  | some b =>
    obtain ⟨l, hl, hb⟩ := List.exists_of_findSome?_eq_some hb
    match b, hb with
    | .lf, _ => rfl
    | .crlf, hb => exact absurd (full_subset hl (by simp [full, hb, LineBreak.text])) hr

theorem findSome?_map_crlf (lines : List Line) :
    (lines.map crlf).findSome? ending = (lines.findSome? ending).map fun _ => .crlf := by
  induction lines with
  | nil => rfl
  | cons l lines ih =>
    obtain ⟨text, ending⟩ := l
    cases ending with
    | none => simpa [crlf] using ih
    | some b => simp [crlf]

theorem firstBreak_of_feed (hf : '\n' ∈ t) (hr : '\r' ∉ t) : firstBreak (ofText t) = .lf := by
  simp [firstBreak, findSome?_of_feed hf hr]

theorem firstBreak_crlf (hf : '\n' ∈ t) (hr : '\r' ∉ t) :
    firstBreak (ofText (Text.crlf t)) = .crlf := by
  simp [firstBreak, ofText_crlf hr, findSome?_map_crlf, findSome?_of_feed hf hr]

/-- What a pass writes for a document, and what a pass with other line breaks writes for the
document with these line breaks. -/
theorem apply_edits_subst {o : Scan.Options} (hσ : Rebreaks σ)
    (hts : Comment.SparedBy σ o.templates) (hdoc : ∀ l ∈ doc, Spares σ l.text)
    (htext : (doc.map g).map text = doc.map text)
    (hg : ∀ l ∈ doc, (g l).full = Text.subst σ l.full) :
    apply (doc.map g) (Scan.edits (o.subst σ) ((doc.map g).map text)) =
      (apply doc (Scan.edits o (doc.map text))).map (Text.subst σ) := by
  have hlines : ∀ x ∈ doc.map text, Spares σ x := by
    intro x hx
    obtain ⟨l, hl, rfl⟩ := List.mem_map.mp hx
    exact hdoc l hl
  rw [htext, Scan.edits_subst hσ hts hlines, apply_subst hg]

/-- A pass over lines without carriage returns writes none, since doubled ones would be seen in what
it writes. -/
theorem noReturn_of_apply {o : Scan.Options} (hts : ∀ slot, '\r' ∉ o.templates.template slot)
    (hb : '\r' ∉ o.lineBreak) (hdoc : ∀ l ∈ doc, '\r' ∉ l.full)
    (h : apply doc (Scan.edits o (doc.map text)) = .ok t) : '\r' ∉ t := by
  have hsame : o.subst doubleReturn = o := by
    have hbreak : Spares doubleReturn o.lineBreak := spares_inPlaceOf hb
    rw [Scan.Options.subst, subst_of_spares hbreak]
  have hdoubled := apply_edits_subst (o := o) (g := id) rebreaks_doubleReturn
    (fun slot => spares_inPlaceOf (hts slot))
    (fun l hl => spares_inPlaceOf fun hm => hdoc l hl (List.mem_append_left _ hm)) (by simp)
    fun l hl => (subst_of_spares (spares_inPlaceOf (hdoc l hl))).symm
  rw [List.map_id, hsame, h] at hdoubled
  exact noReturn_of_doubleReturn (Except.ok.inj hdoubled).symm

theorem crlf_full (hf : '\n' ∉ l.text) (hb : l.ending ≠ some .crlf) :
    l.crlf.full = Text.subst addReturn l.full := by
  obtain ⟨text, ending⟩ := l
  have htext : Text.subst addReturn text = text := subst_of_spares (spares_inPlaceOf hf)
  match ending, hb with
  | none, _ => simp [crlf, full, htext]
  | some .lf, _ =>
    have hfeed : subst addReturn LineBreak.lf.text = LineBreak.crlf.text := rfl
    simp [crlf, full, htext, hfeed]

end Line

namespace Settings

theorem options_crlf (ha : s.lineEnding = .auto) (mode : Mode) :
    s.options mode .crlf = (s.options mode .lf).subst addReturn := by
  simp only [options, lineBreak, ha]
  rfl

/-- Under settings that follow the line breaks of a document, a document with line feeds and the
same document with a carriage return in front of each are treated alike. The edits are the same but
for the line breaks in their texts, and neither result mixes line breaks. -/
theorem pass_crlf (ha : s.lineEnding = .auto)
    (hts : ∀ slot, '\n' ∉ s.templates.template slot ∧ '\r' ∉ s.templates.template slot)
    (hf : '\n' ∈ source) (hr : '\r' ∉ source) (mode : Mode) :
    ∃ t, (s.pass mode source).text = .ok t ∧
      (s.pass mode (Text.crlf source)).text = .ok (Text.crlf t) ∧
      (s.pass mode (Text.crlf source)).edits =
        (s.pass mode source).edits.map (Edit.subst addReturn) ∧
      '\r' ∉ t ∧ Line.Alike (Line.ofText t) ∧ Line.Alike (Line.ofText (Text.crlf t)) := by
  have hnoFeed : ∀ l ∈ Line.ofText source, '\n' ∉ l.text :=
    fun l hl => (Line.plain_of_mem_ofText hl).noFeed
  have hnoReturn : ∀ l ∈ Line.ofText source, '\r' ∉ l.full :=
    fun l hl hm => hr (Line.full_subset hl hm)
  have hbreaks : ∀ l ∈ Line.ofText source, l.ending ≠ some .crlf := by
    intro l hl hb
    exact hnoReturn l hl (by simp [Line.full, hb, LineBreak.text])
  have hfeeds : Comment.SparedBy addReturn (s.options mode .lf).templates :=
    fun slot => spares_inPlaceOf (hts slot).1
  obtain ⟨hedits, htext⟩ := @pass_of_firstBreak s mode source .lf (Line.firstBreak_of_feed hf hr)
  obtain ⟨hedits', htext'⟩ :=
    @pass_of_firstBreak s mode (Text.crlf source) .crlf (Line.firstBreak_crlf hf hr)
  rw [options_crlf ha, Line.ofText_crlf hr] at hedits'
  obtain ⟨t, ht⟩ : ∃ t, (s.pass mode source).text = .ok t := ⟨_, pass_text⟩
  rw [htext, hedits] at ht
  have hreturn : '\r' ∉ t := by
    refine Line.noReturn_of_apply (fun slot => (hts slot).2) ?_ hnoReturn ht
    simp [options, lineBreak, ha, LineBreak.text]
  refine ⟨t, by rw [htext, hedits, ht], ?_, ?_, hreturn, Line.alike_of_noReturn hreturn, ?_⟩
  · rw [htext', hedits', Line.ofText_crlf hr, Line.apply_edits_subst rebreaks_addReturn hfeeds
      (fun l hl => spares_inPlaceOf (hnoFeed l hl)) (Line.text_map_crlf _)
      (fun l hl => Line.crlf_full (hnoFeed l hl) (hbreaks l hl)), ht]
    rfl
  · rw [hedits', hedits, Line.text_map_crlf, Scan.edits_subst rebreaks_addReturn hfeeds]
    intro x hx
    obtain ⟨l, hl, rfl⟩ := List.mem_map.mp hx
    exact spares_inPlaceOf (hnoFeed l hl)
  · rw [Line.ofText_crlf hreturn]
    exact Line.alike_map_crlf _

/-- A method with a comment, an attribute and parameters on two lines. -/
def wrappedMethod : Text :=
  "/// Old.\n[Obsolete]\npublic int Run(int first,\n    string second)\n".toList

theorem pass_crlf_wrapped_method : ∃ t, (default.pass .regenerate wrappedMethod).text = .ok t ∧
    (default.pass .regenerate (Text.crlf wrappedMethod)).text = .ok (Text.crlf t) ∧
    (default.pass .regenerate (Text.crlf wrappedMethod)).edits =
      (default.pass .regenerate wrappedMethod).edits.map (Edit.subst addReturn) ∧
    '\r' ∉ t ∧ Line.Alike (Line.ofText t) ∧ Line.Alike (Line.ofText (Text.crlf t)) :=
  pass_crlf rfl (by rintro ⟨⟩ <;> decide +kernel) (by decide) (by decide) .regenerate

end Settings
end TripleSlash
