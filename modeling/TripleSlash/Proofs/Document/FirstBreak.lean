import TripleSlash.Proofs.Document.Applied
import TripleSlash.Proofs.Document.Breaks

/-! The first line break of what a pass writes. A pass that follows the line breaks of a document
may leave it with another first one, since it takes out comments together with their breaks. -/
namespace TripleSlash

open Comment

namespace Scan

variable {o : Options} {s : State} {i : Nat} {br : LineBreak} {l : Line} {taken doc : List Line}

/-- The pass takes the line out. -/
def Options.TakesOut (o : Options) (l : Line) : Prop :=
  o.mode = .regenerate ∧ isComment l.text = true

theorem kept_of_takesOut (h : o.TakesOut l) : kept o l = [] := if_pos h

theorem kept_of_not_takesOut (h : ¬ o.TakesOut l) : kept o l = [l] := if_neg h

/-- Of lines that are taken out nothing is written. -/
theorem written_taken_append (h : ∀ l ∈ taken, o.TakesOut l) : written o s i (taken ++ doc) =
    written o (after o s i (taken.map Line.text)) (i + taken.length) doc := by
  induction taken generalizing s i with
  | nil => rfl
  | cons l taken ih =>
    have hl := h l (by simp)
    rw [List.cons_append, written, List.map_cons, above_of_comment hl.2, kept_of_takesOut hl,
      ih fun l' hl' => h l' (by simp [hl'])]
    simp [Line.ofText, after, Nat.add_assoc, Nat.add_comm 1]

/-- Of lines that are taken out no comment is placed. -/
theorem insert_mem_placed_append {n : Nat} {text : Text} {lines : List Text}
    (h : ∀ l ∈ taken, o.TakesOut l) :
    .insert n text ∈ placed o s i (taken.map Line.text ++ lines) ↔
      .insert n text ∈ placed o (after o s i (taken.map Line.text)) (i + taken.length) lines := by
  induction taken generalizing s i with
  | nil => rfl
  | cons l taken ih =>
    have hl := h l (by simp)
    rw [List.map_cons, List.cons_append, placed, above_of_comment hl.2]
    simp only [Option.toList_none, List.map_nil, List.nil_append, List.mem_append,
      deletion, hl.1, hl.2, and_self, if_true, List.mem_singleton, reduceCtorEq, false_or]
    rw [ih fun l' hl' => h l' (by simp [hl'])]
    simp [after, Nat.add_assoc, Nat.add_comm 1]

theorem insert_mem_placed_cons {text : Text} {line : Text} {lines : List Text} :
    .insert i text ∈ placed o s i (line :: lines) ↔ above o s i (line :: lines) = some text := by
  have hlater : .insert i text ∉ placed o (step o s i line).state (i + 1) lines := by
    intro h
    have hline := (placed_bounds h).1
    simp only [Edit.line] at hline
    omega
  simp [placed, hlater, insert_not_mem_deletion]

theorem sound_after {Q : Text → Prop} {lines : List Text} (ho : o.Commenting br)
    (hQ : o.Ensures Q) (hl : ∀ line ∈ lines, '\n' ∉ line) (hs : s.Sound Q br) :
    (after o s i lines).Sound Q br := by
  induction lines generalizing s i with
  | nil => exact hs
  | cons line lines ih =>
    exact ih (fun x hx => hl x (by simp [hx])) (sound_step ho hQ (hl line (by simp)) hs)

/-- The first line that stays, or the comment above it, has the first line break. -/
theorem findSome?_written_cons (ht : o.templates = .stock) (hb : o.lineBreak = br.text)
    (hp : Line.Proper (l :: doc)) (hs : s.Sound (Opens br) br) (hl : ¬ o.TakesOut l) :
    (written o s i (l :: doc)).findSome? Line.ending =
      if above o s i ((l :: doc).map Line.text) = none then l.ending else some br := by
  have ho : o.Commenting br := ⟨ht ▸ Templates.stock_commenting.lined, hb⟩
  rw [written, kept_of_not_takesOut hl, List.findSome?_append, List.findSome?_append]
  cases ha : above o s i ((l :: doc).map Line.text) with
  | some text =>
    have hopens := ensures_above ho (ensures_opens ht hb) (noFeed_of_proper hp) hs ha
    simp [findSome?_of_opens hopens]
  | none =>
    cases he : l.ending with
    | some b => simp [he, Line.ofText]
    | none =>
      simp [he, hp.eq_nil he, written, Line.ofText]

theorem proper_of_append (hp : Line.Proper (taken ++ doc)) : Line.Proper doc := by
  induction taken with
  | nil => exact hp
  | cons l taken ih => exact ih hp.2.2

/-- The first line that stays has the first line break of what is written, unless a comment goes
above it. -/
theorem findSome?_written_append (ht : o.templates = .stock) (hb : o.lineBreak = br.text)
    (hp : Line.Proper (taken ++ l :: doc)) (hs : s.Sound (Opens br) br)
    (htaken : ∀ l ∈ taken, o.TakesOut l) (hl : ¬ o.TakesOut l) :
    (∃ text, .insert (i + taken.length) text ∈ placed o s i ((taken ++ l :: doc).map Line.text)) ∧
        (written o s i (taken ++ l :: doc)).findSome? Line.ending = some br ∨
      (∀ text, .insert (i + taken.length) text ∉
          placed o s i ((taken ++ l :: doc).map Line.text)) ∧
        (written o s i (taken ++ l :: doc)).findSome? Line.ending = l.ending := by
  have ho : o.Commenting br := ⟨ht ▸ Templates.stock_commenting.lined, hb⟩
  have hfeeds : ∀ line ∈ taken.map Line.text, '\n' ∉ line := by
    intro line hline
    exact noFeed_of_proper hp line (by rw [List.map_append]; exact List.mem_append_left _ hline)
  have hsound := sound_after (i := i) ho (ensures_opens ht hb) hfeeds hs
  have hinsert : ∀ text, .insert (i + taken.length) text ∈
        placed o s i ((taken ++ l :: doc).map Line.text) ↔
      above o (after o s i (taken.map Line.text)) (i + taken.length)
        ((l :: doc).map Line.text) = some text := by
    intro text
    rw [List.map_append, insert_mem_placed_append htaken]
    exact insert_mem_placed_cons
  simp only [hinsert]
  rw [written_taken_append htaken,
    findSome?_written_cons ht hb (proper_of_append hp) hsound hl]
  cases above o (after o s i (taken.map Line.text)) (i + taken.length)
      ((l :: doc).map Line.text) with
  | some text => exact .inl ⟨⟨text, rfl⟩, if_neg (by simp)⟩
  | none => exact .inr ⟨by simp, if_pos rfl⟩

/-- Some line stays, where one is written. -/
theorem exists_stays (h : written o s i doc ≠ []) : ∃ taken l rest, doc = taken ++ l :: rest ∧
    (∀ l ∈ taken, o.TakesOut l) ∧ ¬ o.TakesOut l := by
  induction doc generalizing s i with
  | nil => exact absurd rfl h
  | cons l doc ih =>
    by_cases hl : o.TakesOut l
    · have hrest := @written_taken_append o s i [l] doc (by simpa using hl)
      rw [List.singleton_append] at hrest
      obtain ⟨taken, l', rest, rfl, htaken, hl'⟩ := ih (hrest ▸ h)
      exact ⟨l :: taken, l', rest, rfl, by simpa [hl] using htaken, hl'⟩
    · exact ⟨[], l, doc, rfl, by simp, hl⟩

end Scan

namespace Settings

variable {s : Settings} {mode : Mode} {source t : Text}

/-- The first line break of the text of a pass. -/
theorem findSome?_pass {taken doc : List Line} {l : Line} (ha : s.lineEnding = .auto)
    (hts : s.templates = .stock) (ht : (s.pass mode source).text = .ok t)
    (hsource : Line.ofText source = taken ++ l :: doc)
    (htaken : ∀ l ∈ taken, mode = .regenerate ∧ isComment l.text = true)
    (hl : ¬ (mode = .regenerate ∧ isComment l.text = true)) :
    (∃ text, .insert taken.length text ∈ (s.pass mode source).edits) ∧
        (Line.ofText t).findSome? Line.ending =
          some (Line.firstBreak (Line.ofText source)) ∨
      (∀ text, .insert taken.length text ∉ (s.pass mode source).edits) ∧
        (Line.ofText t).findSome? Line.ending = l.ending := by
  have hlines : Line.ofText t = s.rewrite mode source := by
    rw [pass_text] at ht
    rw [← Except.ok.inj ht, ofText_rewrite (hts ▸ Templates.stock_commenting)]
  have hedits : (s.pass mode source).edits = _ := pass_edits
  have hwritten : s.rewrite mode source = Scan.written
      (s.options mode (Line.firstBreak (Line.ofText source))) .neutral 0 (Line.ofText source) := rfl
  have hproper := Line.proper_ofText source
  rw [hlines, hedits, hwritten]
  rw [hsource] at hproper ⊢
  have hfirst := @Scan.findSome?_written_append
    (s.options mode (Line.firstBreak (taken ++ l :: doc))) .neutral 0
    (Line.firstBreak (taken ++ l :: doc)) l taken doc hts
    (by simp [options, lineBreak, ha]) hproper Scan.sound_neutral htaken hl
  rwa [Nat.zero_add] at hfirst

/-- Where all comments are written anew, the first line break changes when the first line that is
no comment ends in another one and gets no comment. Otherwise a pass keeps the first line break. -/
theorem firstBreak_pass (ha : s.lineEnding = .auto) (hts : s.templates = .stock) (mode : Mode)
    (source : Text) : ∃ t, (s.pass mode source).text = .ok t ∧ ('\n' ∈ t →
      (Line.firstBreak (Line.ofText t) ≠ Line.firstBreak (Line.ofText source) ↔
        mode = .regenerate ∧ ∃ taken l doc b, Line.ofText source = taken ++ l :: doc ∧
          (∀ c ∈ taken, isComment c.text = true) ∧ isComment l.text = false ∧
          l.ending = some b ∧ b ≠ Line.firstBreak (Line.ofText source) ∧
          ∀ text, .insert taken.length text ∉ (s.pass mode source).edits)) := by
  obtain ⟨t, ht⟩ : ∃ t, (s.pass mode source).text = .ok t := ⟨_, pass_text⟩
  refine ⟨t, ht, fun hfeed => ?_⟩
  have hbreak := Line.findSome?_ne_none hfeed
  constructor
  · intro hne
    have hwritten : s.rewrite mode source ≠ [] := by
      intro hnil
      rw [pass_text, hnil] at ht
      obtain rfl := Except.ok.inj ht
      simp at hfeed
    obtain ⟨taken, l, doc, hsource, htaken, hl⟩ := Scan.exists_stays hwritten
    rcases findSome?_pass ha hts ht hsource htaken hl with ⟨-, hfirst⟩ | ⟨hnone, hfirst⟩
    · exact absurd (congrArg (·.getD .lf) hfirst) hne
    · obtain ⟨b, hb⟩ := Option.ne_none_iff_exists'.mp (hfirst ▸ hbreak)
      have hother : b ≠ Line.firstBreak (Line.ofText source) := by
        rwa [Line.firstBreak, hfirst, hb] at hne
      cases mode with
      | regenerate =>
        have hcode : isComment l.text = false := by simpa [Scan.Options.TakesOut, options] using hl
        have hcomments : ∀ c ∈ taken, isComment c.text = true := fun c hc => (htaken c hc).2
        exact ⟨rfl, taken, l, doc, b, hsource, hcomments, hcode, hb, hother, hnone⟩
      | fillMissing =>
        -- the first line of the document stays, and its break is the first one
        have hhead : taken = [] := by
          rw [List.eq_nil_iff_forall_not_mem]
          exact fun c hc => absurd (htaken c hc).1 (by simp [options])
        rw [hsource, hhead] at hother
        simp [Line.firstBreak, hb] at hother
  · rintro ⟨rfl, taken, l, doc, b, hsource, htaken, hl, hb, hother, hnone⟩
    rcases findSome?_pass ha hts ht hsource (fun c hc => ⟨rfl, htaken c hc⟩) (by simp [hl]) with
      ⟨⟨text, hins⟩, -⟩ | ⟨-, hfirst⟩
    · exact absurd hins (hnone text)
    · rwa [Line.firstBreak, hfirst, hb]

/-- A comment that ends in another line break than the line below it. -/
def unlike : Text := "/// Old.\r\nusing A;\n".toList

theorem firstBreak_pass_unlike : ∃ t, (default.pass .regenerate unlike).text = .ok t ∧ ('\n' ∈ t →
    (Line.firstBreak (Line.ofText t) ≠ Line.firstBreak (Line.ofText unlike) ↔
      Mode.regenerate = .regenerate ∧ ∃ taken l doc b, Line.ofText unlike = taken ++ l :: doc ∧
        (∀ c ∈ taken, isComment c.text = true) ∧ isComment l.text = false ∧
        l.ending = some b ∧ b ≠ Line.firstBreak (Line.ofText unlike) ∧
        ∀ text, .insert taken.length text ∉ (default.pass .regenerate unlike).edits)) :=
  firstBreak_pass rfl rfl .regenerate unlike

/-- The first line break goes with the comment that it ends. -/
theorem firstBreak_taken_out : default.lineEnding = .auto ∧ default.templates = .stock ∧
    ∃ t, (default.pass .regenerate unlike).text = .ok t ∧ '\n' ∈ t ∧
      Line.firstBreak (Line.ofText t) ≠ Line.firstBreak (Line.ofText unlike) := by
  refine ⟨rfl, rfl, _, pass_text, ?_⟩
  decide +kernel

end Settings
end TripleSlash
