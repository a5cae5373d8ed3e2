import TripleSlash.Proofs.Declaration.Types

/-! How the list of base types is read. The arguments of a base type close at the last bracket that
can be reached, so that they may take further base types of the list with them; the list as a whole
ends at the same place. -/
namespace TripleSlash

namespace Canonical

variable {p : Char → Bool}

theorem Ending.stops (e : Ending) (hbrace : p '\x7b' = false)
    (hblank : ∀ c, isBlank c = true → p c = false) : Text.Stops p e.text := by
  cases e with
  | line => exact Text.stops_nil
  | brace gap body => exact (gap.stops hblank).append (Text.stops_cons.mpr hbrace)

theorem Ending.stops_dropWhile (e : Ending) (hbrace : p '\x7b' = false) :
    Text.Stops p (e.text.dropWhile isBlank) := by
  cases e with
  | line => exact Text.stops_nil
  | brace gap body =>
    have hstop : Text.Stops isBlank ('\x7b' :: body) := Text.stops_cons.mpr (by decide)
    rw [Ending.text, Text.dropWhile_stretch gap.all hstop]
    exact Text.stops_cons.mpr hbrace

/-- A character of a dotted name. -/
def isDotted (c : Char) : Bool := isWord c || c == '.'

theorem isBlank_eq_false_of_isDotted (c : Char) (h : isDotted c = true) : isBlank c = false := by
  simp only [isDotted, Bool.or_eq_true, beq_iff_eq] at h
  rcases h with h | rfl
  · exact isBlank_eq_false_of_isWord c h
  · decide

theorem isDotted_eq_false_of_isBlank (c : Char) (h : isBlank c = true) : isDotted c = false := by
  by_contra hc
  simp [isBlank_eq_false_of_isDotted c (by simpa using hc)] at h

theorem Dotted.all (d : Dotted) : ∀ c ∈ d.text, isDotted c = true := by
  intro c hc
  simp only [Dotted.text, List.mem_append, List.mem_flatMap, List.mem_cons] at hc
  rcases hc with hc | ⟨n, -, rfl | hc⟩
  · simp [isDotted, d.first.all c hc]
  · decide
  · simp [isDotted, n.all c hc]

/-- A dotted name as one stretch. -/
def Dotted.stretch (d : Dotted) : Stretch1 isDotted :=
  ⟨⟨d.text, d.all⟩, by simp [Dotted.text, d.first.ne]⟩

/-- The further base types of a list. -/
def furtherText (ms : List FurtherBase) : Text := ms.flatMap (·.text)

theorem furtherText_cons (b : FurtherBase) (ms : List FurtherBase) : furtherText (b :: ms) =
    b.before.text ++ ',' :: (b.after.text ++ (b.base.name.text ++
      (angles b.base.arguments ++ furtherText ms))) := by
  simp [furtherText, FurtherBase.text, BaseText.text]

theorem stops_furtherText (hcomma : p ',' = false) (hblank : ∀ c, isBlank c = true → p c = false)
    (ms : List FurtherBase) : Text.Stops p (furtherText ms) := by
  cases ms with
  | nil => exact Text.stops_nil
  | cons b ms =>
    rw [furtherText_cons]
    exact (b.before.stops hblank).append (Text.stops_cons.mpr hcomma)

/-- What follows a base type does not go on with a name. -/
theorem stops_further (hcomma : p ',' = false) (hbrace : p '\x7b' = false)
    (hblank : ∀ c, isBlank c = true → p c = false) (ms : List FurtherBase) (e : Ending) :
    Text.Stops p (furtherText ms ++ e.text) :=
  (stops_furtherText hcomma hblank ms).append (e.stops hbrace hblank)

/-- Base types without arguments. -/
def Plain (ms : List FurtherBase) : Prop := ∀ b ∈ ms, b.base.arguments = none

theorem isBaseArgument_of_isBlank (c : Char) (h : isBlank c = true) :
    Shape.isBaseArgument c = true := by
  simp [Shape.isBaseArgument, h]

theorem isBaseArgument_of_isDotted (c : Char) (h : isDotted c = true) :
    Shape.isBaseArgument c = true := by
  simp only [isDotted, Bool.or_eq_true, beq_iff_eq] at h
  rcases h with h | rfl
  · simp [Shape.isBaseArgument, h]
  · decide

/-- A list of characters that may stand in arguments. -/
def Inner (t : Text) : Prop := ∀ c ∈ t, Shape.isBaseArgument c = true

theorem Inner.append {x y : Text} (hx : Inner x) (hy : Inner y) : Inner (x ++ y) := by
  intro c hc
  exact (List.mem_append.mp hc).elim (hx c) (hy c)

theorem Inner.cons {c : Char} {t : Text} (hc : Shape.isBaseArgument c = true) (ht : Inner t) :
    Inner (c :: t) := by
  intro d hd
  rcases List.mem_cons.mp hd with rfl | hd
  · exact hc
  · exact ht d hd

theorem inner_angles (x : Option (Stretch Shape.isBaseArgument)) : Inner (angles x) := by
  cases x with
  | none => simp [Inner, angles]
  | some x => exact .cons (by decide) (Inner.append x.all (.cons (by decide) (by simp [Inner])))

/-- The last bracket of a list closes the arguments of the last base type that has any. -/
theorem last_close (ms : List FurtherBase) : Plain ms ∨
    ∃ u post, furtherText ms = u ++ '>' :: furtherText post ∧ Inner u ∧ Plain post := by
  induction ms with
  | nil => exact .inl (by simp [Plain])
  | cons b ms ih =>
    have hhead : ∀ x, Inner x →
        Inner (b.before.text ++ ',' :: (b.after.text ++ (b.base.name.text ++ x))) := by
      intro x hx
      have hbefore : Inner b.before.text := fun c hc =>
        isBaseArgument_of_isBlank c (b.before.all c hc)
      have hafter : Inner b.after.text := fun c hc =>
        isBaseArgument_of_isBlank c (b.after.all c hc)
      have hname : Inner b.base.name.text := fun c hc =>
        isBaseArgument_of_isDotted c (b.base.name.all c hc)
      exact hbefore.append (.cons (by decide) (hafter.append (hname.append hx)))
    rcases ih with hplain | ⟨u, post, hms, hu, hpost⟩
    · cases hx : b.base.arguments with
      | none => exact .inl (List.forall_mem_cons.mpr ⟨hx, hplain⟩)
      | some x =>
        have hinner : Inner ('<' :: x.text) := .cons (by decide) x.all
        refine .inr ⟨_, ms, ?_, hhead _ hinner, hplain⟩
        rw [furtherText_cons, hx]
        simp [angles]
    · refine .inr ⟨_, post, ?_, hhead _ ((inner_angles b.base.arguments).append hu), hpost⟩
      rw [furtherText_cons, hms]
      simp

end Canonical

namespace Shape

open Pattern Canonical

variable {ms : List FurtherBase}

/-- The base types behind the first one. -/
def furtherBases : LinePattern := star (all [gap, text ",", gap, baseType])

theorem bases_eq : bases = part .bases (seq baseType furtherBases) := rfl

theorem noClose_plain (hms : Plain ms) (e : Ending) :
    NoClose isBaseArgument (fun _ => true) (furtherText ms ++ e.text) := by
  induction ms with
  | nil =>
    cases e with
    | line => exact noClose_nil
    | brace gap body =>
      have hstop : NoClose isBaseArgument (fun _ => true) ('\x7b' :: body) :=
        noClose_stop (by decide) (by decide) body
      exact noClose_append (x := gap.text) (gap.not_mem (by decide)) hstop
  | cons b ms ih =>
    obtain ⟨hb, hms⟩ := List.forall_mem_cons.mp hms
    have hname : '>' ∉ b.base.name.text := b.base.name.stretch.not_mem (by decide)
    have hhead : '>' ∉ b.before.text ++ ',' :: (b.after.text ++ b.base.name.text) := by
      simp [b.before.not_mem (d := '>') (by decide), b.after.not_mem (d := '>') (by decide), hname]
    have h := noClose_append hhead (ih hms)
    rw [furtherText_cons, hb]
    simpa [angles] using h

/-- The arguments of a base type close at the last bracket of the list. -/
theorem read?_baseArguments (x : Stretch isBaseArgument) (ms : List FurtherBase) (e : Ending) :
    ∃ post, Plain post ∧ (commit (opt (angled isBaseArgument)) : LinePattern).read?
      ('<' :: (x.text ++ '>' :: (furtherText ms ++ e.text))) =
        some ⟨[], furtherText post ++ e.text⟩ := by
  have hangled : ∀ (x : Stretch isBaseArgument) (ms : List FurtherBase), Plain ms →
      (commit (opt (angled isBaseArgument)) : LinePattern).read?
        ('<' :: (x.text ++ ['>']) ++ (furtherText ms ++ e.text)) =
          some ⟨[], furtherText ms ++ e.text⟩ := by
    intro x ms hms
    rw [read?_commit]
    exact read?_opt (read?_of_picks (picks_angled x rfl (noClose_plain hms e)))
  rcases last_close ms with hplain | ⟨u, post, hms, hu, hpost⟩
  · exact ⟨ms, hplain, by simpa using hangled x ms hplain⟩
  · have hall : Inner (x.text ++ '>' :: u) := Inner.append x.all (.cons (by decide) hu)
    refine ⟨post, hpost, ?_⟩
    have h := hangled ⟨_, hall⟩ post hpost
    rw [hms]
    simpa using h

theorem readings_angled_eq_nil {accepts : Char → Bool} {t : Text}
    (ht : Text.Stops (· == '<') t) : (angled accepts).readings t = [] :=
  readings_seq_eq_nil fun m hm => by simp [readings_text_eq_nil (c := '<') (x := []) ht] at hm

/-- A base type without arguments is read as it is. -/
theorem read?_baseType_plain {b : BaseText} (hb : b.arguments = none) (ms : List FurtherBase)
    (e : Ending) : baseType.read? (b.text ++ (furtherText ms ++ e.text)) =
      some ⟨[], furtherText ms ++ e.text⟩ := by
  have hname : (run1 isDotted : LinePattern).read?
      (b.name.text ++ (furtherText ms ++ e.text)) = some ⟨[], furtherText ms ++ e.text⟩ :=
    read?_run1 b.name.stretch
      (stops_further (by decide) (by decide) isDotted_eq_false_of_isBlank ms e)
  have hnone : (commit (opt (angled isBaseArgument)) : LinePattern).read?
      (furtherText ms ++ e.text) = some ⟨[], furtherText ms ++ e.text⟩ := by
    rw [read?_commit]
    exact read?_opt_none (readings_angled_eq_nil (stops_further (by decide) (by decide)
      (fun c hc => beq_eq_false_of_class hc (by decide)) ms e))
  have htext : b.text = b.name.text := by simp [BaseText.text, hb, angles]
  exact htext ▸ read?_skip hname hnone

/-- A base type is read with its arguments, or with more of the list inside them. -/
theorem read?_baseType (b : BaseText) (ms : List FurtherBase) (e : Ending) :
    ∃ post, (post = ms ∨ Plain post) ∧ baseType.read? (b.text ++ (furtherText ms ++ e.text)) =
      some ⟨[], furtherText post ++ e.text⟩ := by
  cases hb : b.arguments with
  | none => exact ⟨ms, .inl rfl, read?_baseType_plain hb ms e⟩
  | some x =>
    obtain ⟨post, hpost, hread⟩ := read?_baseArguments x ms e
    have hname : (run1 isDotted : LinePattern).read?
        (b.name.text ++ '<' :: (x.text ++ '>' :: (furtherText ms ++ e.text))) =
          some ⟨[], '<' :: (x.text ++ '>' :: (furtherText ms ++ e.text))⟩ :=
      read?_run1 b.name.stretch (Text.stops_cons.mpr (by decide))
    have htext : b.text ++ (furtherText ms ++ e.text) =
        b.name.text ++ '<' :: (x.text ++ '>' :: (furtherText ms ++ e.text)) := by
      simp [BaseText.text, hb, angles]
    exact ⟨post, .inr hpost, htext ▸ read?_skip hname hread⟩

/-- One more base type is read if what is left behind it can be read. -/
theorem read?_further_cons {b : FurtherBase} {ms post : List FurtherBase} {e : Ending}
    (hb : baseType.read? (b.base.text ++ (furtherText ms ++ e.text)) =
      some ⟨[], furtherText post ++ e.text⟩)
    (hpost : furtherBases.read? (furtherText post ++ e.text) = some ⟨[], e.text⟩) :
    furtherBases.read? (furtherText (b :: ms) ++ e.text) = some ⟨[], e.text⟩ := by
  have htext : furtherText (b :: ms) ++ e.text = b.before.text ++ ',' :: (b.after.text ++
      (b.base.text ++ (furtherText ms ++ e.text))) := by
    simp [furtherText, FurtherBase.text]
  have hcomma : Text.Stops isBlank (',' :: (b.after.text ++
      (b.base.text ++ (furtherText ms ++ e.text)))) := Text.stops_cons.mpr (by decide)
  have hname : Text.Stops isBlank (b.base.text ++ (furtherText ms ++ e.text)) := by
    rw [BaseText.text, List.append_assoc]
    exact b.base.name.stretch.stops isBlank_eq_false_of_isDotted _
  rw [htext]
  exact read?_star (by decide) (read?_skip (read?_run b.before.all hcomma)
    (read?_skip (read?_text [','] _) (read?_skip (read?_run b.after.all hname)
      (read?_skip hb (read?_done _))))) hpost

theorem readings_gap (t : Text) : gap.readings t = [⟨[], t.dropWhile isBlank⟩] := rfl

/-- The further base types are read up to the end of the list. -/
theorem read?_further (ms : List FurtherBase) (e : Ending) :
    furtherBases.read? (furtherText ms ++ e.text) = some ⟨[], e.text⟩ := by
  have hplain : ∀ ms, Plain ms →
      furtherBases.read? (furtherText ms ++ e.text) = some ⟨[], e.text⟩ := by
    intro ms hms
    induction ms with
    | nil =>
      refine read?_star_none ((readings_skip (readings_gap _) _).trans ?_)
      have hcomma : Text.Stops (· == ',') (e.text.dropWhile isBlank) :=
        e.stops_dropWhile (by decide)
      refine readings_seq_eq_nil fun m hm => ?_
      simp [furtherText, readings_text_eq_nil (c := ',') (x := []) hcomma] at hm
    | cons b ms ih =>
      obtain ⟨hb, hms⟩ := List.forall_mem_cons.mp hms
      exact read?_further_cons (read?_baseType_plain hb ms e) (ih hms)
  induction ms with
  | nil => exact hplain [] (by simp [Plain])
  | cons b ms ih =>
    obtain ⟨post, hpost, hread⟩ := read?_baseType b.base ms e
    refine read?_further_cons hread ?_
    rcases hpost with rfl | hpost
    · exact ih
    · exact hplain post hpost

/-- A list of base types is captured whole. -/
theorem read?_bases (b : BasesText) (e : Ending) :
    bases.read? (b.list ++ e.text) = some ⟨[(.bases, b.list)], e.text⟩ := by
  obtain ⟨post, -, hread⟩ := read?_baseType b.first b.more e
  have h := read?_skip hread (read?_further post e)
  rw [bases_eq]
  refine read?_part ?_ _
  rw [BasesText.list, List.append_assoc]
  exact h

end Shape
end TripleSlash
