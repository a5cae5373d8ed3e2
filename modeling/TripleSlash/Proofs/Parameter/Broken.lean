import TripleSlash.Proofs.Parameter.Pieces

/-! Parameter lists that are broken into lines. Each line is read on its own, as if it stood outside
all brackets; where that gives the parameters of the whole list depends on what stands on both
sides of a break. -/
namespace TripleSlash.Parameter

open Brackets

variable {a p q r t v w x y g₁ g₂ : Text}

/-- The names in a parameter list. -/
def names (t : Text) : List Text := (parseList t).map name

/-- A text behind which a further parameter begins: it is blank, or blank behind a comma outside of
all brackets. -/
def Ends (x : Text) : Prop :=
  (∀ c ∈ x, isBlank c = true) ∨
    ∃ a w, x = a ++ ',' :: w ∧ depthAfter 0 a = 0 ∧ ∀ c ∈ w, isBlank c = true

theorem ends_nil : Ends [] := .inl (by simp)

theorem tokens_of_blank_append (hw : ∀ c ∈ w, isBlank c = true) : tokens (w ++ t) = tokens t := by
  have hbefore : before (· == '=') 0 w = w := before_of_not_mem (not_mem_of_blank (by decide) hw)
  rw [tokens, tokens, (append_of_before hbefore t).1, depthAfter_blank hw]
  generalize before (· == '=') 0 t = u
  clear hbefore
  induction w with
  | nil => rfl
  | cons c w ih =>
    rw [List.forall_mem_cons] at hw
    obtain ⟨ho, hc⟩ := not_bracket_of_isBlank hw.1
    have hcut : cuts isBlank 0 c = true := by simp [cuts, ho, hc, hw.1]
    rw [List.cons_append, split, if_pos hcut, List.filter_cons_of_neg (by simp), ih hw.2]

theorem parse?_of_blank_append (hw : ∀ c ∈ w, isBlank c = true) :
    parse? (w ++ t) = parse? t := by
  rw [parse?, parse?, tokens_of_blank_append hw]

theorem parseList_of_blank_append (hw : ∀ c ∈ w, isBlank c = true) :
    parseList (w ++ t) = parseList t := by
  have hbefore : before (· == ',') 0 w = w := before_of_not_mem (not_mem_of_blank (by decide) hw)
  rw [parseList, parseList, (append_of_before hbefore t).2, depthAfter_blank hw]
  obtain ⟨pieces, ht⟩ := split_eq_cons (· == ',') 0 t
  rw [ht, List.modifyHead_cons, List.filterMap_cons, List.filterMap_cons,
    parse?_of_blank_append hw]

/-- A comma outside of all brackets divides a list. -/
theorem parseList_comma (ha : depthAfter 0 a = 0) (t : Text) :
    parseList (a ++ ',' :: t) = parseList a ++ parseList t := by
  rw [parseList, split_separator ha rfl, List.filterMap_append]
  rfl

theorem parseList_append_of_ends (hx : Ends x) (y : Text) :
    parseList (x ++ y) = parseList x ++ parseList y := by
  have hblank : ∀ {w}, (∀ c ∈ w, isBlank c = true) → parseList w = [] := by
    intro w hw
    simpa [parseList, split, parse?, tokens, before] using parseList_of_blank_append (t := []) hw
  rcases hx with hw | ⟨a, w, rfl, ha, hw⟩
  · rw [parseList_of_blank_append hw, hblank hw, List.nil_append]
  · rw [List.append_assoc, List.cons_append, parseList_comma ha, parseList_comma ha,
      parseList_of_blank_append hw, hblank hw, List.append_nil]

theorem names_append_of_ends (hx : Ends x) (y : Text) : names (x ++ y) = names x ++ names y := by
  rw [names, parseList_append_of_ends hx, List.map_append]
  rfl

/-! Breaks inside a word. -/

/-- Characters that separate parameters, words of a parameter, and its default value. -/
def separates (c : Char) : Bool := c == ',' || c == '=' || isBlank c

/-- The start of a parameter that nothing divides from what follows. -/
structure Solid (v : Text) : Prop where
  comma : before (· == ',') 0 v = v
  default : before (· == '=') 0 v = v
  closed : depthAfter 0 v = 0
  visible : ∃ c ∈ v, isBlank c = false

/-- Behind the start of a parameter a further word of it follows. -/
def Goes (r : Text) : Prop :=
  ∃ word ∈ (split isBlank 0 (before (· == '=') 0 (before (· == ',') 0 r))).tail, word ≠ []

theorem name_parse? {front back : List Text} (ht : tokens t = front ++ back) (hf : front ≠ [])
    (hb : back ≠ []) : (parse? t).map name = back.getLast? := by
  rcases List.eq_nil_or_concat back with rfl | ⟨back, last, rfl⟩
  · exact absurd rfl hb
  obtain ⟨type, rest, hrest⟩ : ∃ type rest, back.reverse ++ front.reverse = type :: rest :=
    List.exists_cons_of_ne_nil (by simp [hf])
  have hreverse : (tokens t).reverse = last :: type :: rest := by simp [ht, hrest]
  simp [parse?, hreverse]

/-- The last of the further words is the name. -/
theorem name_of_solid (hv : Solid v) {first : Text} {further : List Text}
    (hp : split isBlank 0 (before (· == '=') 0 p) = first :: further)
    (hfurther : ∃ word ∈ further, word ≠ []) :
    (parse? (v ++ p)).map name = (further.filter (!·.isEmpty)).getLast? := by
  obtain ⟨pieces, piece, hpieces, happend⟩ := split_append isBlank 0 v
  have htokens : tokens (v ++ p) =
      (pieces ++ [piece ++ first]).filter (!·.isEmpty) ++ further.filter (!·.isEmpty) := by
    rw [tokens, (append_of_before hv.default p).1, hv.closed, happend, hv.closed, hp,
      List.modifyHead_cons, ← List.filter_append, List.append_assoc]
    rfl
  apply name_parse? htokens
  · obtain ⟨c, hc, hblank⟩ := hv.visible
    obtain ⟨word, hword, hmem⟩ := mem_split_of_mem (d := 0) hc hblank
    have htoken : ∃ token ∈ pieces ++ [piece ++ first], c ∈ token := by
      rw [hpieces] at hword
      rcases List.mem_append.mp hword with hword | hword
      · exact ⟨word, by simp [hword], hmem⟩
      · obtain rfl : word = piece := by simpa using hword
        exact ⟨word ++ first, by simp, by simp [hmem]⟩
    obtain ⟨token, htoken, hmem⟩ := htoken
    have hne : token ≠ [] := List.ne_nil_of_mem hmem
    exact List.ne_nil_of_mem (List.mem_filter.mpr ⟨htoken, by simpa using hne⟩)
  · obtain ⟨word, hword, hne⟩ := hfurther
    exact List.ne_nil_of_mem (List.mem_filter.mpr ⟨hword, by simpa using hne⟩)

theorem names_eq : names t =
    (split (· == ',') 0 t).filterMap fun piece => (parse? piece).map name := by
  simp [names, parseList, List.map_filterMap]

/-- Where further words follow, it does not matter how a parameter begins. -/
theorem names_of_solid (hv : Solid v) (hw : Solid w) (hr : Goes r) :
    names (v ++ r) = names (w ++ r) := by
  obtain ⟨pieces, hpieces⟩ := split_eq_cons (· == ',') 0 r
  obtain ⟨further, hp⟩ := split_eq_cons isBlank 0 (before (· == '=') 0 (before (· == ',') 0 r))
  have hfurther : ∃ word ∈ further, word ≠ [] := by simpa [Goes, hp] using hr
  have hsplit : ∀ {u}, Solid u → split (· == ',') 0 (u ++ r) =
      (u ++ before (· == ',') 0 r) :: pieces := by
    intro u hu
    rw [(append_of_before hu.comma r).2, hu.closed, hpieces, List.modifyHead_cons]
  rw [names_eq, names_eq, hsplit hv, hsplit hw, List.filterMap_cons, List.filterMap_cons,
    name_of_solid hv hp hfurther, name_of_solid hw hp hfurther]

/-- The first word of a parameter, broken inside of its brackets: `q` ends the line, and `g₁ ++ g₂`
goes on with the word. -/
structure Word (q g₁ g₂ : Text) : Prop where
  whole : before separates 0 (q ++ (g₁ ++ g₂)) = q ++ (g₁ ++ g₂)
  inside : 0 < depthAfter 0 (q ++ g₁)
  closed : depthAfter 0 (q ++ (g₁ ++ g₂)) = 0
  /-- Read on their own, the arguments in `g₁` are no parameters. -/
  silent : Ends g₁ ∧ parseList g₁ = []
  plain : ',' ∉ g₂ ∧ '=' ∉ g₂

namespace Word

theorem visible (h : Word q g₁ g₂) : ∃ c ∈ g₂, isBlank c = false := by
  refine Classical.byContradiction fun hblank => ?_
  have hdepth := h.closed
  rw [← List.append_assoc, depthAfter_append, depthAfter_blank (by simpa using hblank)] at hdepth
  exact absurd h.inside (by omega)

theorem solid (h : Word q g₁ g₂) : Solid (q ++ (g₁ ++ g₂)) where
  comma := before_of_imp (by simp [separates]) h.whole
  default := before_of_imp (by simp [separates]) h.whole
  closed := h.closed
  visible := by
    obtain ⟨c, hc, hblank⟩ := h.visible
    exact ⟨c, by simp [hc], hblank⟩

/-- The end of the word can begin a parameter of its own. -/
theorem solid_end (h : Word q g₁ g₂) : Solid g₂ where
  comma := before_of_not_mem h.plain.1
  default := before_of_not_mem h.plain.2
  closed := by
    have hdepth := depthAfter_mono (Nat.zero_le (depthAfter 0 (q ++ g₁))) g₂
    rw [← depthAfter_append, List.append_assoc, h.closed] at hdepth
    exact Nat.le_zero.mp hdepth
  visible := h.visible

/-- The start of the word is no parameter. -/
theorem names_start (h : Word q g₁ g₂) : names q = [] := by
  have hq : before separates 0 q = q := before_of_append h.whole
  have hcomma : split (· == ',') 0 q = [q] :=
    split_of_before (before_of_imp (by simp [separates]) hq)
  have hdefault : before (· == '=') 0 q = q := before_of_imp (by simp [separates]) hq
  have hblank : split isBlank 0 q = [q] :=
    split_of_before (before_of_imp (fun c hc => by simp [separates, hc]) hq)
  have htokens : parse? q = none := by
    rw [parse?, tokens, hdefault, hblank]
    cases q <;> rfl
  simp [names, parseList, hcomma, htokens]

end Word

/-- A break inside the first word of a parameter, with its name behind. -/
def Enclosed (x y : Text) : Prop :=
  ∃ a q g₁ g₂ r, x = a ++ q ∧ y = g₁ ++ (g₂ ++ r) ∧ Ends a ∧ Word q g₁ g₂ ∧ Goes r

theorem names_append_of_enclosed (h : Enclosed x y) : names (x ++ y) = names x ++ names y := by
  obtain ⟨a, q, g₁, g₂, r, rfl, rfl, ha, hw, hr⟩ := h
  have hg₁ : names g₁ = [] := by rw [names, hw.silent.2, List.map_nil]
  calc names (a ++ q ++ (g₁ ++ (g₂ ++ r)))
      = names (a ++ (q ++ (g₁ ++ g₂) ++ r)) := by simp
    _ = names a ++ names (g₂ ++ r) := by
      rw [names_append_of_ends ha, names_of_solid hw.solid hw.solid_end hr]
    _ = names (a ++ q) ++ names (g₁ ++ (g₂ ++ r)) := by
      rw [names_append_of_ends ha, hw.names_start, names_append_of_ends hw.silent.1, hg₁,
        List.append_nil, List.nil_append]

/-- Texts that are broken between parameters or inside the first word of a parameter. -/
def Breaks : List Text → Prop
  | [] => True
  | [_] => True
  | x :: y :: rest => (Ends x ∨ Enclosed x (y ++ rest.flatten)) ∧ Breaks (y :: rest)

/-- Each of them names its own parameters. -/
theorem names_flatten {xs : List Text} (h : Breaks xs) : names xs.flatten = xs.flatMap names := by
  induction xs with
  | nil => rfl
  | cons x xs ih =>
    cases xs with
    | nil => simp
    | cons y rest =>
      obtain ⟨hx, hrest⟩ := h
      have happend : names (x ++ (y :: rest).flatten) = names x ++ names (y :: rest).flatten := by
        rcases hx with hx | hx
        · exact names_append_of_ends hx _
        · exact names_append_of_enclosed hx
      rw [List.flatten_cons, happend, ih hrest, ← List.flatMap_cons]

/-- Texts that are all broken between parameters list each their own. -/
theorem parseList_flatten {xs : List Text} (h : ∀ x ∈ xs, Ends x) (y : Text) :
    parseList (xs ++ [y]).flatten = (xs ++ [y]).flatMap parseList := by
  induction xs with
  | nil => simp
  | cons x xs ih =>
    rw [List.forall_mem_cons] at h
    rw [List.cons_append, List.flatten_cons, parseList_append_of_ends h.1, ih h.2,
      List.flatMap_cons]

end TripleSlash.Parameter
