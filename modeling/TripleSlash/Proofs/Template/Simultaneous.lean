import Mathlib.Data.List.Infix
import TripleSlash.Proofs.Template.Known

/-! Filling a template is simultaneous replacement. Which places of a template are holes is seen in
the template alone, each hole gets the value of its key, and every other character stays. -/
namespace TripleSlash.Template

variable {values : Values} {key key' t x y rest : Text} {c : Char} {i j : Nat}

/-- Keys without braces, so that the braces of a hole are its own. -/
def Values.Bare (values : Values) : Prop := ∀ pair ∈ values, '{' ∉ pair.1 ∧ '}' ∉ pair.1

/-- The hole of a key that has a value begins at a place of a template. -/
structure HoleAt (values : Values) (t : Text) (i : Nat) (key : Text) : Prop where
  listed : key ∈ values.map Prod.fst
  stands : hole key <+: t.drop i

/-- A hole ends in front of the place. -/
def endOf (i : Nat) (key : Text) : Nat := i + (hole key).length

/-- What the places of a template become: the first place of a hole becomes the first value of its
key, the others of the hole nothing, and what stands in no hole is kept. -/
structure Replaced (values : Values) (t : Text) (became : Nat → Text) : Prop where
  first : ∀ i key, HoleAt values t i key → values.lookup key = some (became i)
  inside : ∀ i key, HoleAt values t i key → ∀ j, i < j → j < endOf i key → became j = []
  outside : ∀ j c, t[j]? = some c → (∀ i key, HoleAt values t i key → j < i ∨ endOf i key ≤ j) →
    became j = [c]

/-- No hole of a listed key begins in one text and ends in the next. -/
def Apart (values : Values) (x y : Text) : Prop :=
  ∀ i key, HoleAt values (x ++ y) i key → endOf i key ≤ x.length ∨ x.length ≤ i

/-! Holes -/

theorem Values.Bare.not_brace (h : values.Bare) (hk : key ∈ values.map Prod.fst) :
    '{' ∉ key ∧ '}' ∉ key := by
  obtain ⟨pair, hp, rfl⟩ := List.mem_map.mp hk
  exact h pair hp

theorem length_hole (key : Text) : (hole key).length = key.length + 2 := by simp [hole]

theorem holeAt_append : HoleAt values (x ++ t) (x.length + i) key ↔ HoleAt values t i key := by
  have hdrop : (x ++ t).drop (x.length + i) = t.drop i := List.drop_length_add_append ..
  constructor
  · rintro ⟨hl, hs⟩
    exact ⟨hl, hdrop ▸ hs⟩
  · rintro ⟨hl, hs⟩
    exact ⟨hl, hdrop.symm ▸ hs⟩

theorem HoleAt.getElem? (h : HoleAt values t i key) (hj : j < (hole key).length) :
    t[i + j]? = (hole key)[j]? := by
  obtain ⟨rest, hr⟩ := h.stands
  rw [← List.getElem?_drop, ← hr, List.getElem?_append_left hj]

/-- No hole begins inside of another one. -/
theorem HoleAt.endOf_le (hv : values.Bare) (h : HoleAt values t i key)
    (h' : HoleAt values t j key') (hij : i < j) : endOf i key ≤ j := by
  by_contra hlt
  rw [endOf, Nat.not_le] at hlt
  have hopen : t[j]? = some '{' := h'.getElem? (j := 0) (by simp [hole])
  have hinside := h.getElem? (j := j - i) (by omega)
  rw [show i + (j - i) = j by omega, hopen] at hinside
  have hmem : '{' ∈ key ++ ['}'] := by
    rw [show j - i = j - i - 1 + 1 by omega] at hinside
    exact List.mem_of_getElem? hinside.symm
  simp [(hv.not_brace h.listed).1] at hmem

/-- Only one hole begins at a place. -/
theorem HoleAt.unique (hv : values.Bare) (h : HoleAt values t i key)
    (h' : HoleAt values t i key') : key = key' := by
  obtain ⟨rest, hr⟩ := h.stands
  obtain ⟨rest', hr'⟩ := h'.stands
  have hsame : key ++ '}' :: rest = key' ++ '}' :: rest' := by
    simpa [hole] using hr.trans hr'.symm
  calc key
      = (key ++ '}' :: rest).takeWhile (· != '}') :=
        (takeWhile_key (hv.not_brace h.listed).2 rest).symm
    _ = key' := by rw [hsame, takeWhile_key (hv.not_brace h'.listed).2]

/-- A hole of the first text is one of the whole text. -/
theorem HoleAt.append (h : HoleAt values x i key) (y : Text) : HoleAt values (x ++ y) i key := by
  refine ⟨h.listed, h.stands.trans ?_⟩
  rw [List.drop_append]
  exact List.prefix_append _ _

/-- A hole that ends in the first text is one of that text. -/
theorem HoleAt.of_append (h : HoleAt values (x ++ y) i key) (hend : endOf i key ≤ x.length) :
    HoleAt values x i key := by
  have hfront : x.drop i <+: (x ++ y).drop i := by
    rw [List.drop_append]
    exact List.prefix_append _ _
  refine ⟨h.listed, List.prefix_of_prefix_length_le h.stands hfront ?_⟩
  simp only [endOf] at hend
  rw [List.length_drop]
  omega

theorem endOf_add (n i : Nat) (key : Text) : endOf (n + i) key = n + endOf i key := by
  simp [endOf, Nat.add_assoc]

/-- A hole in two texts is one in the first or one in the second. -/
theorem HoleAt.cases (ha : Apart values x y) (h : HoleAt values (x ++ y) i key) :
    (endOf i key ≤ x.length ∧ HoleAt values x i key) ∨
      ∃ j, i = x.length + j ∧ HoleAt values y j key := by
  rcases ha i key h with hend | hbegin
  · exact .inl ⟨hend, h.of_append hend⟩
  · obtain ⟨j, rfl⟩ := Nat.exists_eq_add_of_le hbegin
    exact .inr ⟨j, rfl, holeAt_append.mp h⟩

/-! What the places become -/

/-- What becomes of two texts, one behind the other. -/
def joined (n : Nat) (f g : Nat → Text) (i : Nat) : Text := if i < n then f i else g (i - n)

theorem joined_of_lt {n : Nat} {f g : Nat → Text} (h : i < n) : joined n f g i = f i := if_pos h

theorem joined_add (n : Nat) (f g : Nat → Text) (i : Nat) : joined n f g (n + i) = g i := by
  rw [joined, if_neg (by omega), Nat.add_sub_cancel_left]

theorem Replaced.append {f g : Nat → Text} (ha : Apart values x y) (hx : Replaced values x f)
    (hy : Replaced values y g) : Replaced values (x ++ y) (joined x.length f g) where
  first i key h := by
    rcases h.cases ha with ⟨hend, hi⟩ | ⟨j, rfl, hj⟩
    · have hlt : i < x.length := by
        simp only [endOf, length_hole] at hend
        omega
      rw [joined_of_lt hlt, hx.first i key hi]
    · rw [joined_add, hy.first j key hj]
  inside i key h j hij hj := by
    rcases h.cases ha with ⟨hend, hi⟩ | ⟨i, rfl, hi⟩
    · rw [joined_of_lt (by omega), hx.inside i key hi j hij hj]
    · obtain ⟨j, rfl⟩ := Nat.exists_eq_add_of_le (show x.length ≤ j by omega)
      rw [endOf_add] at hj
      rw [joined_add, hy.inside i key hi j (by omega) (by omega)]
  outside j c hc hout := by
    by_cases hlt : j < x.length
    · rw [List.getElem?_append_left hlt] at hc
      rw [joined_of_lt hlt, hx.outside j c hc fun i key hi => hout i key (hi.append y)]
    · obtain ⟨j, rfl⟩ := Nat.exists_eq_add_of_le (Nat.le_of_not_lt hlt)
      rw [List.getElem?_append_right (Nat.le_add_right _ _), Nat.add_sub_cancel_left] at hc
      rw [joined_add]
      refine hy.outside j c hc fun i key hi => ?_
      have hwhole := hout (x.length + i) key (holeAt_append.mpr hi)
      rw [endOf_add] at hwhole
      omega

theorem flatMap_joined (m n : Nat) (f g : Nat → Text) :
    (List.range (m + n)).flatMap (joined m f g) =
      (List.range m).flatMap f ++ (List.range n).flatMap g := by
  rw [List.range_add, List.flatMap_append, List.flatMap_map]
  congr 1
  · exact List.flatMap_congr fun i hi => joined_of_lt (List.mem_range.mp hi)
  · exact List.flatMap_congr fun i _ => joined_add m f g i

theorem replaced_nil (f : Nat → Text) : Replaced values [] f where
  first i key h := by simpa [hole] using h.stands
  inside i key h := by simpa [hole] using h.stands
  outside j c hc := by simp at hc

theorem replaced_char (c : Char) : Replaced values [c] fun _ => [c] where
  first i key h := by
    have := h.stands.length_le
    simp [hole] at this
    omega
  inside i key h := by
    have := h.stands.length_le
    simp [hole] at this
    omega
  outside j d hd _ := by
    obtain ⟨hj, rfl⟩ := List.getElem?_eq_some_iff.mp hd
    simp

/-! Filling -/

/-- Where no hole begins the character stays. -/
theorem fill_cons_of_no_hole (h : ∀ key, ¬ HoleAt values (c :: t) 0 key) :
    fill values (c :: t) = c :: fill values t := by
  have hnone : (if c = '{' then holeAt? values t else none) = none := by
    by_contra hne
    obtain ⟨⟨value, size⟩, hsome⟩ := Option.ne_none_iff_exists'.mp hne
    split at hsome
    next hc =>
      obtain ⟨key, rest, rfl, -, hl⟩ := holeAt?_eq_some hsome
      obtain ⟨l₁, l₂, rfl, -⟩ := List.lookup_eq_some_iff.mp hl
      exact h key ⟨by simp, rest, by simp [hole, hc]⟩
    next => simp at hsome
  simp [fill, fillFrom, hnone]

/-- A template begins with a hole or with a character that stays. -/
theorem template_cases (hv : values.Bare) (t : Text) : t = [] ∨
    (∃ key value rest, t = hole key ++ rest ∧ values.lookup key = some value ∧
      HoleAt values t 0 key ∧ fill values t = value ++ fill values rest) ∨
    ∃ c rest, t = c :: rest ∧ (∀ key, ¬ HoleAt values t 0 key) ∧
      fill values t = c :: fill values rest := by
  by_cases h : ∃ key, HoleAt values t 0 key
  · obtain ⟨key, hk⟩ := h
    obtain ⟨rest, hr⟩ := hk.stands
    obtain rfl : hole key ++ rest = t := by simpa using hr
    obtain ⟨value, hl⟩ := exists_lookup hk.listed
    exact .inr (.inl ⟨key, value, rest, rfl, hl, hk, fill_hole (hv.not_brace hk.listed).2 hl⟩)
  · have hno := not_exists.mp h
    cases t with
    | nil => exact .inl rfl
    | cons c rest => exact .inr (.inr ⟨c, rest, rfl, hno, fill_cons_of_no_hole hno⟩)

/-- A hole alone becomes the value of its key. -/
theorem replaced_hole {value : Text} (hv : values.Bare) (h : HoleAt values (hole key) 0 key)
    (hl : values.lookup key = some value) :
    Replaced values (hole key) fun i => if i = 0 then value else [] := by
  have honly : ∀ i key', HoleAt values (hole key) i key' → i = 0 ∧ key' = key := by
    intro i key' hi
    rcases Nat.eq_zero_or_pos i with rfl | hpos
    · exact ⟨rfl, hi.unique hv h⟩
    · have hend := h.endOf_le hv hi hpos
      have hlength := hi.stands.length_le
      simp only [endOf, List.length_drop, length_hole] at hend hlength
      omega
  refine ⟨fun i key' hi => ?_, fun i key' hi j hij _ => if_neg (by omega), fun j c hc hout => ?_⟩
  · obtain ⟨rfl, rfl⟩ := honly i key' hi
    exact hl
  · have hlt := (List.getElem?_eq_some_iff.mp hc).1
    have := hout 0 key h
    simp only [endOf] at this
    omega

/-- Every template is filled by replacing its places. -/
theorem exists_replaced (hv : values.Bare) (t : Text) :
    ∃ became, Replaced values t became ∧ fill values t = (List.range t.length).flatMap became := by
  induction hn : t.length using Nat.strongRecOn generalizing t with
  | ind n ih =>
    subst hn
    rcases template_cases hv t with
      rfl | ⟨key, value, rest, rfl, hl, hk, hfill⟩ | ⟨c, rest, rfl, hno, hfill⟩
    · exact ⟨fun _ => [], replaced_nil _, rfl⟩
    · obtain ⟨became, hrest, hb⟩ := ih rest.length (by simp [length_hole]) rest rfl
      have hapart : Apart values (hole key) rest := by
        intro i key' hi
        rcases Nat.eq_zero_or_pos i with rfl | hpos
        · obtain rfl := hi.unique hv hk
          exact .inl (by simp [endOf])
        · exact .inr (by simpa [endOf] using hk.endOf_le hv hi hpos)
      have hhole : HoleAt values (hole key) 0 key := hk.of_append (by simp [endOf])
      refine ⟨_, (replaced_hole hv hhole hl).append hapart hrest, ?_⟩
      rw [hfill, List.length_append, flatMap_joined, ← hb]
      simp [length_hole, List.range_succ_eq_map, List.flatMap_map]
    · obtain ⟨became, hrest, hb⟩ := ih rest.length (by simp) rest rfl
      have hapart : Apart values [c] rest := by
        intro i key hi
        rcases Nat.eq_zero_or_pos i with rfl | hpos
        · exact absurd hi (hno key)
        · exact .inr hpos
      refine ⟨_, (replaced_char c).append hapart hrest, ?_⟩
      rw [hfill, show (c :: rest).length = [c].length + rest.length by simp; omega,
        flatMap_joined, ← hb]
      simp

/-- Templates that share no hole are filled one by one. -/
theorem fill_append_of_apart (hv : values.Bare) (y : Text) (ha : Apart values x y) :
    fill values (x ++ y) = fill values x ++ fill values y := by
  induction hn : x.length using Nat.strongRecOn generalizing x with
  | ind n ih =>
    subst hn
    -- behind the front of `x` the texts are apart too
    have hrest : ∀ {a b}, x = a ++ b → Apart values b y := by
      rintro a b rfl i key hi
      rw [Apart, List.append_assoc] at ha
      have := ha (a.length + i) key (holeAt_append.mpr hi)
      rw [endOf_add, List.length_append] at this
      omega
    rcases template_cases hv x with
      rfl | ⟨key, value, rest, rfl, hl, hk, hfill⟩ | ⟨c, rest, rfl, hno, hfill⟩
    · rfl
    · rw [hfill, List.append_assoc, fill_hole (hv.not_brace hk.listed).2 hl, List.append_assoc,
        ih rest.length (by simp [length_hole]) (hrest rfl) rfl]
    · have hno' : ∀ key, ¬ HoleAt values (c :: (rest ++ y)) 0 key := by
        intro key hk
        rcases ha 0 key hk with hend | hbegin
        · exact hno key (HoleAt.of_append (y := y) hk hend)
        · simp at hbegin
      rw [hfill, List.cons_append, fill_cons_of_no_hole hno', List.cons_append,
        ih rest.length (by simp) (hrest (a := [c]) rfl) rfl]

/-- Filling a template replaces all its holes at once. Holes never overlap, each becomes the first
value of its key, everything else is kept, and values are not looked at. -/
theorem fill_simultaneous (hv : values.Bare) :
    (∀ t i j key key', HoleAt values t i key → HoleAt values t j key' →
      (i = j ∧ key = key') ∨ endOf i key ≤ j ∨ endOf j key' ≤ i) ∧
    (∀ t, ∃ became, Replaced values t became ∧
      fill values t = (List.range t.length).flatMap became) ∧
    ∀ x y, Apart values x y → fill values (x ++ y) = fill values x ++ fill values y := by
  refine ⟨fun t i j key key' hi hj => ?_, exists_replaced hv, fun x y => fill_append_of_apart hv y⟩
  rcases Nat.lt_trichotomy i j with hlt | rfl | hlt
  · exact .inr (.inl (hi.endOf_le hv hj hlt))
  · exact .inl ⟨rfl, hi.unique hv hj⟩
  · exact .inr (.inr (hj.endOf_le hv hi hlt))

/-- Values of two keys, one of which looks like a hole of the other. -/
def nested : Values := [("a", "1"), ("b", hole "a"), ("a", "2")]

/-- A brace that is not closed, and then a hole. -/
def opensTwice : Text := ['{', 'c'] ++ hole "a"

/-- A hole, and then a brace that was not opened. -/
def closesTwice : Text := ['-'] ++ hole "b" ++ ['}']

theorem fill_simultaneous_nested : nested.Bare ∧ HoleAt nested opensTwice 2 "a".toList ∧
    Apart nested opensTwice closesTwice ∧
    fill nested (opensTwice ++ closesTwice) = ['{', 'c', '1', '-'] ++ hole "a" ++ ['}'] := by
  have hbare : nested.Bare := by
    unfold Values.Bare
    decide
  have hhole : HoleAt nested opensTwice 2 "a".toList := ⟨by decide, by decide⟩
  have hapart : Apart nested opensTwice closesTwice := by
    have hbounded : ∀ i < 5, ∀ key ∈ nested.map Prod.fst,
        hole key <+: (opensTwice ++ closesTwice).drop i → endOf i key ≤ 5 := by decide
    intro i key hi
    by_cases hlt : i < 5
    · exact .inl (hbounded i hlt key hi.listed hi.stands)
    · exact .inr (Nat.le_of_not_lt hlt)
  refine ⟨hbare, hhole, hapart, ?_⟩
  rw [(fill_simultaneous hbare).2.2 _ _ hapart]
  decide +kernel

end TripleSlash.Template
