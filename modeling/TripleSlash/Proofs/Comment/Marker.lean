import TripleSlash.Proofs.Comment.Spliced
import TripleSlash.Proofs.Text.Clear

/-! Where the marker for later parameters comes from. Templates keep braces that begin no hole, so a
hole behind such a brace may complete the marker by accident. Templates that leave no beginning of
the marker in front of a hole give a comment the marker only where its parameters belong. Line
breaks complete no marker: a beginning of it may stand in front of `{nl}`, and at the end of the
template of a declaration, where its comment ends. -/
namespace TripleSlash

open Comment Template Templates Text

variable {ts : Templates} {values : Values} {keys : List Text}
  {key a b t x v nl lb line tail value rest : Text} {d : Declaration}

namespace Template

/-- No beginning of the marker stands in front of a hole, unless a line break goes into the hole. -/
def Guarded (keys : List Text) (t : Text) : Prop :=
  ∀ i < t.length, ∀ key ∈ keys, key ≠ "nl".toList → hole key <+: t.drop i →
    ¬ Dangles marker (t.take i)

instance : Decidable (Guarded keys t) := inferInstanceAs (Decidable (∀ i < t.length, _))

theorem not_dangles_of_guarded (h : Guarded keys (a ++ (hole key ++ b))) (hk : key ∈ keys)
    (hnl : key ≠ "nl".toList) : ¬ Dangles marker a := by
  have hhole := h a.length (by simp [hole]) key hk hnl
  rw [List.drop_left, List.take_left] at hhole
  exact hhole (List.prefix_append _ _)

theorem dangles_append (h : Dangles marker b) : Dangles marker (a ++ b) := by
  obtain ⟨p, hp, hne, hsuffix⟩ := h
  exact ⟨p, hp, hne, hsuffix.trans (List.suffix_append a b)⟩

theorem guarded_of_append (h : Guarded keys (a ++ b)) : Guarded keys b := by
  intro i hi key hk hnl hp hd
  refine h (a.length + i) (by simpa using hi) key hk hnl ?_ ?_
  · rwa [List.drop_length_add_append]
  · rw [List.take_length_add_append]
    exact dangles_append hd

theorem once_of_append (h : Once key (a ++ b)) : Once key b := by
  intro i hi hpi j hj hpj
  have hij := h (a.length + i) (by simpa using hi) (by rwa [List.drop_length_add_append])
    (a.length + j) (by simpa using hj) (by rwa [List.drop_length_add_append])
  omega

/-- Behind its only hole a key has no further one. -/
theorem not_isInfix_of_once (h : Once key (hole key ++ t)) : ¬ hole key <:+: t := by
  rintro ⟨b, c, rfl⟩
  rw [List.append_assoc] at h
  exact not_once_twice [] b c h

/-- A template that does not hold the marker and leaves no beginning of it in front of a hole, nor
at its end where `tail` stands behind it. -/
structure Fits (keys : List Text) (tail t : Text) : Prop where
  free : ¬ marker <:+: t
  guarded : Guarded keys t
  ended : ¬ Dangles marker t ∨ Parted marker tail

theorem Fits.of_append (h : Fits keys tail (a ++ b)) : Fits keys tail b where
  free hb := h.free (hb.trans (List.suffix_append a b).isInfix)
  guarded := guarded_of_append h.guarded
  ended := h.ended.imp_left fun hd hb => hd (dangles_append hb)

/-- A value completes no marker that the text in front of its hole begins. -/
theorem clear_filled (h : Fits keys tail (x ++ (hole key ++ rest))) (hk : key ∈ keys)
    (hv : Clear marker value) (hnl : key = "nl".toList → Parted marker value) :
    Clear marker (x ++ value) := by
  have hfree : ¬ marker <:+: x := fun hx => h.free (hx.trans (List.prefix_append x _).isInfix)
  refine clear_join hfree hv ?_
  by_cases hkey : key = "nl".toList
  · exact .inr (hnl hkey)
  · exact .inl (not_dangles_of_guarded h.guarded hk hkey)

/-- Values that do not hold the marker do not make it either, in front of a text that does not. -/
theorem clear_fill (h : Fits keys tail t)
    (hv : ∀ key value, hole key <:+: t → values.lookup key = some value →
      key ∈ keys ∧ Clear marker value)
    (hnl : ∀ value, values.lookup "nl".toList = some value → Parted marker value)
    (htail : Clear marker tail) : Clear marker (fill values t ++ tail) := by
  -- `x` is the text of the template since its last hole
  suffices hx : ∀ x, Fits keys tail (x ++ t) → Clear marker (x ++ fill values t ++ tail) from
    hx [] h
  clear h
  induction t using fill_induction values with
  | nil =>
    intro x h
    rw [List.append_nil] at h
    simpa [fill, fillFrom] using clear_join h.free htail h.ended
  | char c t hf ih =>
    intro x h
    rw [List.append_cons] at h
    rw [hf, List.append_cons]
    exact ih (fun key value hk => hv key value (hk.trans (List.suffix_cons c t).isInfix)) _ h
  | filled key value rest hl hf ih =>
    intro x h
    obtain ⟨hkey, hvalue⟩ := hv key value (List.prefix_append _ _).isInfix hl
    have hfront := clear_filled h hkey hvalue fun he => hnl value (he ▸ hl)
    have hrest := ih (fun key value hk => hv key value (hk.trans (List.suffix_append _ _).isInfix))
      [] h.of_append.of_append
    rw [hf]
    simpa using clear_append hfront hrest

/-- A text that the marker stands in once at most, behind `v`. -/
def Holds (v t : Text) : Prop :=
  Clear marker t ∨ ∃ front back, Clear marker front ∧ Clear marker back ∧ t = front ++ (v ++ back)

theorem holds_append (ha : Clear marker a) (ht : Holds v t) : Holds v (a ++ t) := by
  rcases ht with ht | ⟨front, back, hfront, hback, rfl⟩
  · exact .inl (clear_append ha ht)
  · exact .inr ⟨a ++ front, back, clear_append ha hfront, hback, by simp⟩

/-- The value of a hole stands in a comment once at most, if the template has one such hole. -/
theorem holds_fill (h : Fits keys tail t) (honce : Once key t) (hne : key ≠ "nl".toList)
    (hv : ∀ key' value, values.lookup key' = some value →
      key' ∈ keys ∧ (Clear marker value ∨ key' = key ∧ value = v))
    (hnl : ∀ value, values.lookup "nl".toList = some value → Parted marker value)
    (htail : Clear marker tail) : Holds v (fill values t ++ tail) := by
  suffices hx : ∀ x, Fits keys tail (x ++ t) → Holds v (x ++ fill values t ++ tail) from hx [] h
  clear h
  induction t using fill_induction values with
  | nil =>
    intro x h
    rw [List.append_nil] at h
    exact .inl (by simpa [fill, fillFrom] using clear_join h.free htail h.ended)
  | char c t hf ih =>
    intro x h
    rw [List.append_cons] at h
    rw [hf, List.append_cons]
    exact ih (once_of_append (a := [c]) honce) _ h
  | filled key' value rest hl hf ih =>
    intro x h
    obtain ⟨hkey, hvalue⟩ := hv key' value hl
    have hrest : Fits keys tail rest := h.of_append.of_append
    rw [hf]
    rcases hvalue with hvalue | ⟨rfl, rfl⟩
    · have hfront := clear_filled h hkey hvalue fun he => hnl value (he ▸ hl)
      simpa using holds_append hfront (ih (once_of_append honce) [] hrest)
    · have hfree : ¬ marker <:+: x := fun hx => h.free (hx.trans (List.prefix_append x _).isInfix)
      have hfront := clear_of_not_dangles hfree (not_dangles_of_guarded h.guarded hkey hne)
      refine .inr ⟨x, fill values rest ++ tail, hfront, clear_fill hrest ?_ hnl htail, by simp⟩
      -- behind the only hole no other one is filled with `v`
      intro k w hk hw
      obtain ⟨hmem, hclear | ⟨rfl, -⟩⟩ := hv k w hw
      · exact ⟨hmem, hclear⟩
      · exact absurd hk (not_isInfix_of_once honce)

end Template

/-- The templates of parts, whose texts stand inside of comments. -/
def Templates.Slot.parts : List Slot := [.parameter, .returns]

/-- Templates that do not hold the marker and leave no beginning of it where it may be completed. -/
structure Templates.Guarded (ts : Templates) : Prop where
  free (slot : Slot) : ¬ marker <:+: ts.template slot
  guarded (slot : Slot) : Template.Guarded slot.keys (ts.template slot)
  ended : ∀ slot ∈ Slot.parts, ¬ Dangles marker (ts.template slot)

theorem Templates.Guarded.fits (hts : ts.Guarded) {slot : Slot}
    (h : slot ∈ Slot.parts ∨ Parted marker tail) :
    Template.Fits slot.keys tail (ts.template slot) where
  free := hts.free slot
  guarded := hts.guarded slot
  ended := h.imp_left (hts.ended slot)

/-- A known template opens braces for its holes only. -/
theorem Template.Known.brace (ht : Template.Known keys t) (hkeys : ∀ key ∈ keys, '{' ∉ key)
    (h : t = a ++ '{' :: b) : ∃ key ∈ keys, hole key <+: '{' :: b := by
  induction ht generalizing a with
  | nil => simp at h
  | char hc _ ih =>
    cases a with
    | nil => exact absurd (List.cons.inj h).1 hc
    | cons d a => exact ih (List.cons.inj h).2
  | @filled key t hk _ ih =>
    rcases List.append_eq_append_iff.mp h with ⟨a', -, ht⟩ | ⟨b', hhole, hb⟩
    · exact ih ht
    · cases b' with
      | nil => exact ih (a := []) hb.symm
      | cons c b' =>
        obtain rfl : '{' = c := (List.cons.inj hb).1
        cases a with
        | nil => exact ⟨key, hk, hhole ▸ hb ▸ List.prefix_append _ _⟩
        | cons d a =>
          have htail : key ++ ['}'] = a ++ '{' :: b' := (List.cons.inj hhole).2
          have hmem : '{' ∈ key ++ ['}'] := by simp [htail]
          simp [hkeys key hk] at hmem

/-- The keys of known holes are not the one of the marker. -/
theorem not_isPrefix_marker (hkey : '}' ∉ key) (hne : key ≠ "additional parameters".toList) :
    ¬ key ++ ['}'] <+: "additional parameters".toList ++ '}' :: b := by
  rintro ⟨rest, h⟩
  have hkeys := congrArg (List.takeWhile (· != '}')) h
  rw [List.append_assoc, List.singleton_append, takeWhile_key hkey,
    takeWhile_key (by decide)] at hkeys
  exact hne hkeys

/-- Keys that can stand in a hole, other than the one of the marker. -/
def Ordinary (keys : List Text) : Prop :=
  ∀ key ∈ keys, '{' ∉ key ∧ '}' ∉ key ∧ key ≠ "additional parameters".toList

theorem not_dangles_of_known (hkeys : Ordinary keys) (ht : Template.Known keys (a ++ b))
    (hb : b = [] ∨ b.head? = some '{') : ¬ Dangles marker a := by
  rintro ⟨p, hp, hne, x, rfl⟩
  have hmarker := (List.mem_inits p marker).mp hp
  obtain ⟨c, q, rfl⟩ := List.exists_cons_of_ne_nil hne
  obtain ⟨rfl, hq⟩ := List.cons_prefix_cons.mp hmarker
  obtain ⟨key, hk, hhole⟩ := ht.brace (a := x) (b := q ++ b) (fun key hk => (hkeys key hk).1)
    (by simp)
  obtain ⟨hopen, hclose, hkey⟩ := hkeys key hk
  have hkq : key ++ ['}'] <+: q ++ b := (List.cons_prefix_cons.mp hhole).2
  have hmade : ¬ key ++ ['}'] <+: q := fun h =>
    not_isPrefix_marker (b := []) hclose hkey (h.trans hq)
  rcases List.prefix_or_prefix_of_prefix hkq (List.prefix_append q b) with h | ⟨y, hy⟩
  · exact hmade h
  · -- the hole would go on behind `q`, where the next one begins
    cases y with
    | nil => exact hmade (by simp [← hy])
    | cons c y =>
      have hcb : c :: y <+: b := by rwa [← hy, List.prefix_append_right_inj] at hkq
      rcases hb with rfl | hb
      · simp at hcb
      · obtain ⟨rest, rfl⟩ := hcb
        obtain rfl : c = '{' := by simpa using hb
        have hmem : '{' ∈ key ++ ['}'] := by simp [← hy]
        simp [hopen] at hmem

theorem not_isInfix_of_known (hkeys : Ordinary keys) (ht : Template.Known keys t) :
    ¬ marker <:+: t := by
  rintro ⟨x, y, rfl⟩
  obtain ⟨key, hk, hhole⟩ := ht.brace (a := x)
    (b := "additional parameters".toList ++ '}' :: y) (fun key hk => (hkeys key hk).1)
    (by simp [marker, hole])
  exact not_isPrefix_marker (hkeys key hk).2.1 (hkeys key hk).2.2 (List.cons_prefix_cons.mp hhole).2

theorem ordinary_slot (slot : Slot) : Ordinary slot.keys := by
  unfold Ordinary
  cases slot <;> decide

/-- Templates that use braces for holes of their keys only leave no beginning of the marker. -/
theorem Templates.Known.guarded (h : ts.Known) : ts.Guarded where
  free slot := not_isInfix_of_known (ordinary_slot slot) (h slot)
  ended slot _ :=
    not_dangles_of_known (b := []) (ordinary_slot slot) (by simpa using h slot) (.inl rfl)
  guarded slot i hi key hk _ hp := by
    refine not_dangles_of_known (ordinary_slot slot) (b := (ts.template slot).drop i) ?_ (.inr ?_)
    · rw [List.take_append_drop]
      exact h slot
    · obtain ⟨rest, hrest⟩ := hp
      simp [← hrest, hole]

/-- A parameter that does not hold the marker nor ends in a beginning of it. -/
structure Parameter.Clear (p : Parameter) : Prop where
  type : Text.Clear marker p.type
  name : Text.Clear marker p.name

namespace Comment

/-- A text in front of which no beginning of the marker is completed, and that has no brace. -/
structure Parting (t : Text) : Prop where
  unbraced : '{' ∉ t
  parted : Parted marker t

theorem parting_lineBreak (br : LineBreak) : Parting br.text := by
  cases br with
  | lf => exact ⟨by decide, '\n', rfl, by decide⟩
  | crlf => exact ⟨by decide, '\r', rfl, by decide⟩

theorem parting_newline (hlb : Parting lb) (hd : d.Unbraced) : Parting (newline lb d.indent) :=
  ⟨not_brace_newline hlb.unbraced hd, hlb.parted.append d.indent⟩

theorem marker_ne_nil : marker ≠ [] := by decide

theorem clear_of_unbraced (h : '{' ∉ t) : Clear marker t := clear_of_not_mem h

/-- Values that do not hold the marker nor end in a beginning of it. -/
def ClearValues (values : Values) : Prop := ∀ pair ∈ values, Clear marker pair.2

theorem clearValues_of_unbraced (h : values.Unbraced) : ClearValues values :=
  fun pair hp => clear_of_unbraced (h pair hp)

theorem clearValues_append {values' : Values} (h : ClearValues values)
    (h' : ClearValues values') : ClearValues (values ++ values') := by
  intro pair hp
  exact (List.mem_append.mp hp).elim (h pair) (h' pair)

/-- The value that begins further lines. -/
theorem parted_of_lookup (hnl : Parting nl) (hl : values.lookup "nl".toList = some nl) :
    ∀ value, values.lookup "nl".toList = some value → Parted marker value := by
  intro value hvalue
  obtain rfl : nl = value := Option.some.inj (hl.symm.trans hvalue)
  exact hnl.parted

/-- A template is filled with such values without the marker. -/
theorem clear_fill_slot (hts : ts.Guarded) (slot : Slot) (hkeys : values.map Prod.fst ⊆ slot.keys)
    (hv : ClearValues values) (hnl : Parting nl) (hl : values.lookup "nl".toList = some nl)
    (htail : Clear marker tail) (hend : slot ∈ Slot.parts ∨ Parted marker tail) :
    Clear marker (fill values (ts.template slot) ++ tail) := by
  refine clear_fill (hts.fits hend) (fun key value _ hl => ?_) (parted_of_lookup hnl hl) htail
  obtain ⟨l₁, l₂, rfl, -⟩ := List.lookup_eq_some_iff.mp hl
  exact ⟨hkeys (by simp), hv (key, value) (by simp)⟩

/-- So is the template of a part, whatever stands behind it. -/
theorem clear_fill_part (hts : ts.Guarded) (slot : Slot) (hslot : slot ∈ Slot.parts)
    (hkeys : values.map Prod.fst ⊆ slot.keys) (hv : ClearValues values) (hnl : Parting nl)
    (hl : values.lookup "nl".toList = some nl) : Clear marker (fill values (ts.template slot)) := by
  simpa using clear_fill_slot hts slot hkeys hv hnl hl (clear_of_unbraced (t := []) (by simp))
    (.inl hslot)

theorem clear_parameterEntries (hts : ts.Guarded) (hnl : Parting nl)
    (hps : ∀ p ∈ Parameter.parseList t, p.Clear) : Clear marker (parameterEntries ts nl t) := by
  refine clear_flatMap fun p hp => clear_append (clear_of_unbraced hnl.unbraced) ?_
  have hvalues : ClearValues (parameterValues p) := by
    simpa [ClearValues, parameterValues] using ⟨(hps p hp).type, (hps p hp).name⟩
  have hline := clearValues_of_unbraced (lineValues_unbraced hnl.unbraced)
  exact clear_fill_part hts .parameter (by decide) (List.Subset.refl _)
    (clearValues_append hvalues hline) hnl rfl

theorem clear_returnsEntry {r : TypeRef} (hts : ts.Guarded) (hnl : Parting nl) (hr : r.Unbraced) :
    Clear marker (returnsEntry ts nl r) := by
  unfold returnsEntry
  split
  · exact clear_of_unbraced (by simp)
  · have hvalues := clearValues_of_unbraced (unbraced_append (typeValues_unbraced hr)
      (lineValues_unbraced hnl.unbraced))
    exact clear_append (clear_of_unbraced hnl.unbraced)
      (clear_fill_part hts .returns (by decide) (List.Subset.refl _) hvalues hnl rfl)

/-- What a line gives a comment has no braces, the parameters apart. -/
theorem kindValues_cases (hts : ts.Guarded) (hnl : Parting nl)
    (hd : Declaration.recognize? line = some d) : ∀ pair ∈ kindValues ts nl d.kind,
      Clear marker pair.2 ∨ ∃ ps, d.parameters? = some ps ∧
        pair = ("parameters".toList, parameterBlock ts nl ps) := by
  have hplain : ∀ values : Values, values.Unbraced → ∀ pair ∈ values, Clear marker pair.2 ∨
      ∃ ps, d.parameters? = some ps ∧ pair = ("parameters".toList, parameterBlock ts nl ps) :=
    fun values h pair hp => .inl (clear_of_unbraced (h pair hp))
  have hunbraced := Declaration.unbraced_of_recognize? hd
  cases Declaration.recognize?_shaped hd with
  | type m hm hd =>
    obtain ⟨keyword, -, -, hk⟩ := Declaration.typeOfCapture?_eq_some hd
    rw [hk]
    apply hplain
    have hkeyword : '{' ∉ keyword.spelling := by cases keyword <;> decide
    simpa [kindValues, Values.Unbraced] using ⟨hkeyword, Pattern.not_mem_text hm (by decide) .bases⟩
  | constructor m hm hd =>
    obtain ⟨-, -, hk⟩ := Declaration.ofCapture?_eq_some hd
    rw [hk]
    rintro pair hp
    obtain rfl := List.mem_singleton.mp hp
    exact .inr ⟨_, by rw [Declaration.parameters?, hk], rfl⟩
  | method m hm hd =>
    obtain ⟨-, -, hk⟩ := Declaration.ofCapture?_eq_some hd
    have hr := hunbraced.returns _ _ _ _ hk
    rw [hk]
    intro pair hp
    rcases List.mem_cons.mp hp with rfl | hp
    · exact .inr ⟨_, by rw [Declaration.parameters?, hk], rfl⟩
    rcases List.mem_cons.mp hp with rfl | hp
    · exact .inl (clear_returnsEntry hts hnl hr)
    · exact hplain _ (typeValues_unbraced hr) pair hp
  | property m hm hd =>
    obtain ⟨-, -, hk⟩ := Declaration.ofCapture?_eq_some hd
    rw [hk]
    exact hplain _ (typeValues_unbraced (Declaration.capturedType_unbraced hm (by decide)))

theorem keys_subset {slot : Slot} (h : d.kind.slot? = some slot) :
    (headValues d ++ kindValues ts nl d.kind ++ lineValues nl).map Prod.fst ⊆ slot.keys := by
  have hkeys : ∀ kind : Declaration.Kind, kind.slot? = some slot →
      (headValues d ++ kindValues ts nl kind ++ lineValues nl).map Prod.fst ⊆ slot.keys := by
    intro kind hkind
    cases kind with
    | property type accessors =>
      obtain ⟨get, set, init⟩ := accessors
      cases get <;> cases set <;> cases init <;> cases hkind <;> exact List.Subset.refl _
    | _ =>
      cases hkind
      exact List.Subset.refl _
  exact hkeys d.kind h

/-- Of all values for a comment only its parameters may hold the marker. -/
theorem values_cases (hts : ts.Guarded) (hnl : Parting nl)
    (hd : Declaration.recognize? line = some d) :
    ∀ pair ∈ headValues d ++ kindValues ts nl d.kind ++ lineValues nl, Clear marker pair.2 ∨
      ∃ ps, d.parameters? = some ps ∧ pair = ("parameters".toList, parameterBlock ts nl ps) := by
  intro pair hp
  rcases List.mem_append.mp hp with hp | hp
  · rcases List.mem_append.mp hp with hp | hp
    · have hhead := headValues_unbraced (Declaration.unbraced_of_recognize? hd)
      exact .inl (clear_of_unbraced (hhead pair hp))
    · exact kindValues_cases hts hnl hd pair hp
  · exact .inl (clear_of_unbraced (lineValues_unbraced hnl.unbraced pair hp))

/-- Further lines begin in every template alike. -/
theorem lookup_newline (ts : Templates) (nl : Text) (d : Declaration) :
    (headValues d ++ kindValues ts nl d.kind ++ lineValues nl).lookup "nl".toList = some nl := by
  cases d.kind <;> rfl

/-- A comment is a filled template between the indent and a line break. -/
theorem exists_filled (hr : render? ts lb d = some t) : ∃ slot, d.kind.slot? = some slot ∧
    template? ts d.kind = some (ts.template slot) ∧
    t = d.indent ++ fill (headValues d ++ kindValues ts (newline lb d.indent) d.kind ++
      lineValues (newline lb d.indent)) (ts.template slot) ++ lb := by
  obtain ⟨body, hbody, rfl⟩ := Option.map_eq_some_iff.mp hr
  obtain ⟨template, ht, rfl⟩ := Option.map_eq_some_iff.mp hbody
  obtain ⟨slot, hslot, rfl⟩ := exists_slot ht
  exact ⟨slot, hslot, ht, rfl⟩

/-- A comment whose parameters are all on the line of its declaration does not hold the marker. -/
theorem clear_render? (hts : ts.Guarded) (hlb : Parting lb)
    (hd : Declaration.recognize? line = some d)
    (hps : ∀ p ∈ Parameter.parseList d.rawParameters, p.Clear) (ho : d.isOpen = false)
    (hr : render? ts lb d = some t) : Clear marker t := by
  have hunbraced := Declaration.unbraced_of_recognize? hd
  have hnl := parting_newline hlb hunbraced
  obtain ⟨slot, hslot, -, rfl⟩ := exists_filled hr
  have hvalues : ClearValues (headValues d ++ kindValues ts (newline lb d.indent) d.kind ++
      lineValues (newline lb d.indent)) := by
    intro pair hp
    rcases values_cases hts hnl hd pair hp with hclear | ⟨ps, hparameters, rfl⟩
    · exact hclear
    · have hcomplete : ps.complete = true := by
        simpa [Declaration.isOpen, hparameters] using ho
      have hraw : d.rawParameters = ps.raw := by simp [Declaration.rawParameters, hparameters]
      simpa [parameterBlock, hcomplete] using clear_parameterEntries hts hnl (hraw ▸ hps)
  rw [List.append_assoc]
  exact clear_append (clear_of_unbraced hunbraced.indent)
    (clear_fill_slot hts slot (keys_subset hslot) hvalues hnl (lookup_newline ts _ d)
      (clear_of_unbraced hlb.unbraced) (.inr hlb.parted))

theorem holds_of_append (ha : Clear marker a) (h : Holds (a ++ v) t) : Holds v t := by
  rcases h with h | ⟨front, back, hfront, hback, rfl⟩
  · exact .inl h
  · exact .inr ⟨front ++ a, back, clear_append hfront ha, hback, by simp⟩

/-- A comment that waits for parameters holds the marker where they belong, and nowhere else. -/
theorem holds_render? (hts : ts.Guarded) (hlb : Parting lb)
    (hd : Declaration.recognize? line = some d)
    (hps : ∀ p ∈ Parameter.parseList d.rawParameters, p.Clear) (ho : d.isOpen = true)
    (honce : ∀ template, template? ts d.kind = some template → Once "parameters" template)
    (hr : render? ts lb d = some t) : Holds marker t := by
  have hunbraced := Declaration.unbraced_of_recognize? hd
  have hnl := parting_newline hlb hunbraced
  obtain ⟨slot, hslot, ht, rfl⟩ := exists_filled hr
  have hbody : Holds (parameterEntries ts (newline lb d.indent) d.rawParameters ++ marker)
      (fill (headValues d ++ kindValues ts (newline lb d.indent) d.kind ++
        lineValues (newline lb d.indent)) (ts.template slot) ++ lb) := by
    refine holds_fill (hts.fits (.inr hlb.parted)) (honce _ ht) (by decide)
      (fun key value hl => ?_) (parted_of_lookup hnl (lookup_newline ts _ d))
      (clear_of_unbraced hlb.unbraced)
    obtain ⟨l₁, l₂, he, -⟩ := List.lookup_eq_some_iff.mp hl
    have hmem : (key, value) ∈ headValues d ++ kindValues ts (newline lb d.indent) d.kind ++
        lineValues (newline lb d.indent) := by simp [he]
    refine ⟨keys_subset hslot (List.mem_map_of_mem hmem), ?_⟩
    rcases values_cases hts hnl hd _ hmem with hclear | ⟨ps, hparameters, he⟩
    · exact .inl hclear
    · obtain ⟨rfl, rfl⟩ := Prod.mk.inj he
      have hopen : ps.complete = false := by simpa [Declaration.isOpen, hparameters] using ho
      exact .inr ⟨rfl, by simp [parameterBlock, Declaration.rawParameters, hparameters, hopen]⟩
  have hentries := clear_parameterEntries hts hnl hps
  rw [List.append_assoc]
  exact holds_append (clear_of_unbraced hunbraced.indent) (holds_of_append hentries hbody)

namespace Pending

variable {p : Pending}

/-- A comment that waits, with the marker at one place at most. -/
structure Marked (p : Pending) : Prop where
  head : Holds marker p.head
  entries : Clear marker p.entries
  newline : Parting p.newline

theorem marked_accept (hts : ts.Guarded) (h : p.Marked)
    (hps : ∀ q ∈ Parameter.parseList (Parens.inside p.depth line), q.Clear) :
    (p.accept ts line).Marked where
  head := h.head
  entries := clear_append h.entries (clear_parameterEntries hts h.newline hps)
  newline := h.newline

/-- Where later parameters take its place, the marker is gone. -/
theorem clear_assembled (h : p.Marked) : Clear marker p.assembled := by
  rw [assembled]
  rcases h.head with hclear | ⟨front, back, hfront, hback, he⟩
  · rwa [replaceFirst_of_clear marker_ne_nil hclear]
  · rw [he, replaceFirst_append_of_clear hfront, replaceFirst_of_begins _ _ marker_ne_nil]
    exact clear_append hfront (clear_append h.entries hback)

end Pending
end Comment
end TripleSlash
