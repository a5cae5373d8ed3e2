import TripleSlash.Proofs.Parameter.Written

/-! Parameters with initializers. An initializer may leave brackets open, since its operators count
as brackets too, and then the parameters behind it are taken for a part of it. -/
namespace TripleSlash.Parameter

open Brackets

variable {x g y : Text} {d : Nat}

/-- A parameter without an initializer: its brackets are balanced, neither a comma nor an equals
sign stands outside of them, and it has a type and a name. -/
structure Fragment where
  text : Text
  balanced : Balanced text
  whole : Whole (fun c => c == ',' || c == '=') text
  parameter : Parameter
  reads : parse? text = some parameter

/-- An initializer without commas. -/
structure Initializer where
  gap : Stretch isBlank
  value : Text
  plain : ',' ∉ value

/-- A parameter with its initializer, if it has one. -/
def initialized (p : Fragment × Option Initializer) : Text :=
  p.1.text ++ (p.2.map fun v => v.gap.text ++ '=' :: v.value).getD []

/-- The parameters that are found in a list which begins at a depth: those that begin outside of
all brackets. -/
def found : Nat → List (Fragment × Option Initializer) → List Parameter
  | _, [] => []
  | d, p :: ps =>
    (if d = 0 then [p.1.parameter] else []) ++ found (depthAfter d (initialized p)) ps

variable {p : Fragment × Option Initializer} {ps : List (Fragment × Option Initializer)}

theorem Fragment.uncut (f : Fragment) {s : Char} (hs : s = ',' ∨ s = '=') :
    Uncut (· == s) f.text :=
  (f.balanced.uncut f.whole).mono fun c hc => by
    obtain rfl : c = s := by simpa using hc
    simpa using hs

theorem depthAfter_initialized (p : Fragment × Option Initializer) :
    depthAfter 0 (initialized p) = (p.2.map fun v => depthAfter 0 v.value).getD 0 := by
  rw [initialized, depthAfter_append, (p.1.uncut (.inl rfl)).closed]
  cases p.2 with
  | none => rfl
  | some v =>
    rw [Option.map_some, Option.getD_some, depthAfter_append, depthAfter_blank v.gap.all]
    rfl

/-- Only the comma behind a parameter may separate it from what follows. -/
theorem before_initialized (d : Nat) (p : Fragment × Option Initializer) :
    before (· == ',') d (initialized p) = initialized p := by
  refine before_of_le (Nat.zero_le d) ?_
  have hfragment := p.1.uncut (s := ',') (.inl rfl)
  have hrest : before (· == ',') 0 ((p.2.map fun v => v.gap.text ++ '=' :: v.value).getD []) =
      (p.2.map fun v => v.gap.text ++ '=' :: v.value).getD [] := by
    cases p.2 with
    | none => rfl
    | some v =>
      have hgap : ',' ∉ v.gap.text := v.gap.not_mem (by decide)
      exact before_of_not_mem (by simp [hgap, v.plain])
  rw [initialized, (append_of_before hfragment.whole _).1, hfragment.closed, hrest]

/-- Blanks behind a parameter make no token. -/
theorem tokens_append_blank (hx : Uncut (· == '=') x) (hg : ∀ c ∈ g, isBlank c = true) :
    tokens (x ++ g) = tokens x := by
  have hblank : before (· == '=') 0 g = g := before_of_not_mem (not_mem_of_blank (by decide) hg)
  have hnone : tokens (g ++ []) = [] := tokens_of_blank_append hg
  obtain ⟨pieces, piece, hpieces, happend⟩ := split_append isBlank 0 x
  rw [tokens, (append_of_before hx.whole g).1, hx.closed, hblank, happend, hx.closed, tokens,
    hx.whole, hpieces, List.filter_append, List.filter_append]
  rw [List.append_nil, tokens, hblank] at hnone
  cases g with
  | nil => simp [split]
  | cons c g =>
    obtain ⟨hopen, hclose⟩ := not_bracket_of_isBlank (hg c (by simp))
    have hcut : cuts isBlank 0 c = true := by simp [cuts, hopen, hclose, hg c (by simp)]
    rw [split, if_pos hcut] at hnone ⊢
    have hrest : (split isBlank 0 g).filter (!·.isEmpty) = [] := by simpa using hnone
    simp [List.filter_cons, hrest]

/-- What follows an equals sign does not belong to the parameter. -/
theorem parse?_initialized (hy : p.2 = none → y = []) :
    parse? (initialized p ++ y) = some p.1.parameter := by
  have hfragment := p.1.uncut (s := '=') (.inr rfl)
  have htokens : tokens (initialized p ++ y) = tokens p.1.text := by
    rw [initialized]
    cases hv : p.2 with
    | none => simp [hy hv]
    | some v =>
      have hgap : Uncut (· == '=') v.gap.text := uncut_blank (by decide) v.gap.all
      have hfront := hfragment.append hgap
      have hcut : before (· == '=') 0 ('=' :: (v.value ++ y)) = [] := rfl
      rw [Option.map_some, Option.getD_some, List.append_assoc, List.append_assoc,
        List.cons_append, ← List.append_assoc, ← tokens_append_blank hfragment v.gap.all, tokens,
        (append_of_before hfront.whole _).1, hfront.closed, hcut, List.append_nil, tokens,
        hfront.whole]
  rw [parse?, htokens, ← parse?, p.1.reads]

/-- The first piece of a list is read for its first parameter, and the others for those parameters
that begin outside of all brackets. -/
theorem split_initialized (d : Nat) (p : Fragment × Option Initializer)
    (ps : List (Fragment × Option Initializer)) : ∃ y pieces,
      split (· == ',') d ([','].intercalate ((p :: ps).map initialized)) =
          (initialized p ++ y) :: pieces ∧
        (d = 0 → p.2 = none → y = []) ∧
          pieces.filterMap parse? = found (depthAfter d (initialized p)) ps := by
  induction ps generalizing d p with
  | nil =>
    refine ⟨[], [], ?_, fun _ _ => rfl, rfl⟩
    simpa using split_of_before (before_initialized d p)
  | cons q qs ih =>
    obtain ⟨y, pieces, hsplit, hy, hfound⟩ := ih (depthAfter d (initialized p)) q
    have hline : [','].intercalate ((p :: q :: qs).map initialized) =
        initialized p ++ ',' :: [','].intercalate ((q :: qs).map initialized) := by
      simp [List.intercalate_cons_cons]
    rw [hline, (append_of_before (before_initialized d p) _).2, split]
    by_cases hdepth : depthAfter d (initialized p) = 0
    · have hcut : cuts (· == ',') (depthAfter d (initialized p)) ',' = true := by
        rw [hdepth]
        rfl
      refine ⟨[], (initialized q ++ y) :: pieces, ?_, fun _ _ => rfl, ?_⟩
      · rw [if_pos hcut, hsplit]
        rfl
      · rw [List.filterMap_cons_some (parse?_initialized (hy hdepth)), hfound, found, hdepth]
        rfl
    · have hcut : ¬ cuts (· == ',') (depthAfter d (initialized p)) ',' = true := by
        simp [cuts, hdepth]
      refine ⟨',' :: (initialized q ++ y), pieces, ?_, ?_, ?_⟩
      · rw [if_neg hcut]
        change ((split _ (depthAfter d (initialized p)) _).modifyHead _).modifyHead _ = _
        rw [hsplit]
        rfl
      · rintro rfl hnone
        exact absurd (by simp [depthAfter_initialized, hnone]) hdepth
      · rw [hfound, found, if_neg hdepth]
        rfl

theorem parseList_found (ps : List (Fragment × Option Initializer)) :
    parseList ([','].intercalate (ps.map initialized)) = found 0 ps := by
  cases ps with
  | nil => rfl
  | cons p ps =>
    obtain ⟨y, pieces, hsplit, hy, hfound⟩ := split_initialized 0 p ps
    rw [parseList, hsplit, List.filterMap_cons_some (parse?_initialized (hy rfl)), hfound]
    rfl

theorem length_found_le (d : Nat) (ps : List (Fragment × Option Initializer)) :
    (found d ps).length ≤ ps.length := by
  induction ps generalizing d with
  | nil => simp [found]
  | cons p ps ih =>
    have hrest := ih (depthAfter d (initialized p))
    unfold found
    split <;> simp <;> omega

/-- All parameters are found where every initializer but the last closes its brackets. -/
theorem found_eq_map_iff (ps : List (Fragment × Option Initializer)) :
    found 0 ps = ps.map (·.1.parameter) ↔
      ∀ p ∈ ps.dropLast, depthAfter 0 (initialized p) = 0 := by
  induction ps with
  | nil => simp [found]
  | cons p ps ih =>
    rw [found, if_pos rfl, List.singleton_append, List.map_cons, List.cons_inj_right]
    cases ps with
    | nil => simp [found]
    | cons q qs =>
      rw [List.dropLast_cons_cons, List.forall_mem_cons]
      by_cases hdepth : depthAfter 0 (initialized p) = 0
      · simpa [hdepth] using ih
      · simp only [hdepth, false_and, iff_false]
        intro h
        have hlength := congrArg List.length h
        have hrest := length_found_le (depthAfter (depthAfter 0 (initialized p)) (initialized q)) qs
        rw [found, if_neg hdepth, List.nil_append, List.length_map, List.length_cons] at hlength
        omega

theorem parseList_fragments (ps : List (Fragment × Option Initializer)) :
    parseList ([','].intercalate (ps.map (·.1.text))) = ps.map (·.1.parameter) := by
  have hclosed : ∀ t ∈ ps.map (·.1.text), depthAfter 0 t = 0 := by
    intro t ht
    obtain ⟨p, -, rfl⟩ := List.mem_map.mp ht
    exact (p.1.uncut (.inl rfl)).closed
  have hone : ∀ f : Fragment, parseList f.text = [f.parameter] := by
    intro f
    rw [parseList, split_of_before (f.uncut (.inl rfl)).whole]
    simp [f.reads]
  rw [parseList_intercalate fun t ht => hclosed t (List.mem_of_mem_dropLast ht), List.flatMap_map,
    List.map_eq_flatMap]
  simp only [hone]

/-- Initializers change nothing about the parameters of a list exactly if each of them, but for the
last parameter's, closes the brackets that it opens, its operators counted among them. -/
theorem parseList_initialized (ps : List (Fragment × Option Initializer)) :
    parseList ([','].intercalate (ps.map initialized)) =
        parseList ([','].intercalate (ps.map (·.1.text))) ↔
      ∀ p ∈ ps.dropLast, ∀ v, p.2 = some v → depthAfter 0 v.value = 0 := by
  rw [parseList_found, parseList_fragments, found_eq_map_iff]
  refine forall₂_congr fun p _ => ?_
  rw [depthAfter_initialized]
  cases p.2 <;> simp

/-- A parameter with a shift to the right as its initializer. -/
def shiftedRight : Fragment × Option Initializer :=
  (⟨"[In(1, 2)] int a", by decide, by decide, ⟨"int", "a"⟩, by decide⟩,
    some ⟨.blank, " 1 >> 3", by decide⟩)

/-- A parameter with a shift to the left as its initializer. -/
def shiftedLeft : Fragment × Option Initializer :=
  (⟨" Map<int, é> b", by decide, by decide, ⟨"Map<int, é>", "b"⟩, by decide⟩,
    some ⟨.empty, "1 << 3", by decide⟩)

/-- A shift to the right changes nothing, and one to the left nothing behind the last parameter. -/
theorem parseList_initialized_shifts :
    parseList "[In(1, 2)] int a = 1 >> 3, Map<int, é> b=1 << 3".toList =
        parseList "[In(1, 2)] int a, Map<int, é> b".toList ∧
      parseList " Map<int, é> b=1 << 3,[In(1, 2)] int a = 1 >> 3".toList ≠
        parseList " Map<int, é> b,[In(1, 2)] int a".toList := by
  have hright : [','].intercalate ([shiftedRight, shiftedLeft].map initialized) =
        "[In(1, 2)] int a = 1 >> 3, Map<int, é> b=1 << 3".toList ∧
      [','].intercalate ([shiftedRight, shiftedLeft].map (·.1.text)) =
        "[In(1, 2)] int a, Map<int, é> b".toList := by decide +kernel
  have hleft : [','].intercalate ([shiftedLeft, shiftedRight].map initialized) =
        " Map<int, é> b=1 << 3,[In(1, 2)] int a = 1 >> 3".toList ∧
      [','].intercalate ([shiftedLeft, shiftedRight].map (·.1.text)) =
        " Map<int, é> b,[In(1, 2)] int a".toList := by decide +kernel
  rw [← hright.1, ← hright.2, ← hleft.1, ← hleft.2, ne_eq, parseList_initialized,
    parseList_initialized]
  refine ⟨fun p hp v hv => ?_, fun h => ?_⟩
  · obtain rfl : p = shiftedRight := List.mem_singleton.mp hp
    obtain rfl := Option.some.inj hv
    decide
  · exact absurd (h shiftedLeft List.mem_cons_self _ rfl) (by decide)

/-- Behind a shift to the left a parameter is not found. -/
theorem shift_takes_next :
    (∀ c ∈ [',', '"', '\x27', '\x7b', '\x7d', '(', ')', '[', ']'], c ∉ "1 << 3".toList) ∧
      parseList "int a, int b" = [⟨"int", "a"⟩, ⟨"int", "b"⟩] ∧
      parseList "int a = 1 << 3, int b" = [⟨"int", "a"⟩] :=
  ⟨by simp, by decide, by decide⟩

end TripleSlash.Parameter
