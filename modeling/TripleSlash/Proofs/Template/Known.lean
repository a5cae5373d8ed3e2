import TripleSlash.Proofs.Template.Fill

/-! Templates whose braces are all holes of known keys. Filled with values without braces they have
no brace left, so a text that stands in one of their holes is found by its own brace. -/
namespace TripleSlash

namespace Template

variable {keys : List Text} {key t x : Text} {values values' front back : Values}

/-- A template of text without opening braces and of holes for some keys. -/
inductive Known (keys : List Text) : Text → Prop where
  | nil : Known keys []
  | char {c : Char} {t : Text} (hc : c ≠ '{') (ht : Known keys t) : Known keys (c :: t)
  | filled {key t : Text} (hk : key ∈ keys) (ht : Known keys t) : Known keys (hole key ++ t)

/-- A template in which the hole of a key begins at one place at most. -/
def Once (key t : Text) : Prop :=
  ∀ i < t.length, hole key <+: t.drop i → ∀ j < t.length, hole key <+: t.drop j → i = j

instance : Decidable (Once key t) :=
  inferInstanceAs (Decidable (∀ i < t.length, _ → ∀ j < t.length, _ → i = j))

theorem not_once_twice (a b c : Text) :
    ¬ Once key (a ++ (hole key ++ (b ++ (hole key ++ c)))) := by
  intro h
  have hfirst := h a.length (by simp [hole]) (by simp)
  have hsecond := hfirst (a.length + ((hole key).length + b.length)) (by simp [hole]; omega) (by
    rw [List.drop_length_add_append, List.drop_length_add_append, List.drop_left]
    exact List.prefix_append _ _)
  simp [hole] at hsecond

/-- Values without opening braces. -/
def Values.Unbraced (values : Values) : Prop := ∀ pair ∈ values, '{' ∉ pair.2

/-- Keys that can stand in a hole and have a value. -/
def Values.Serve (values : Values) (keys : List Text) : Prop :=
  ∀ key ∈ keys, '}' ∉ key ∧ key ∈ values.map Prod.fst

theorem exists_lookup (h : key ∈ values.map Prod.fst) :
    ∃ value, values.lookup key = some value := by
  obtain ⟨pair, hp, rfl⟩ := List.mem_map.mp h
  cases hl : values.lookup pair.1 with
  | some value => exact ⟨value, rfl⟩
  | none => simpa using List.lookup_eq_none_iff.mp hl pair hp

theorem Values.Unbraced.lookup {value : Text} (h : values.Unbraced)
    (hl : values.lookup key = some value) : '{' ∉ value := by
  obtain ⟨l₁, l₂, rfl, -⟩ := List.lookup_eq_some_iff.mp hl
  exact h (key, value) (by simp)

theorem unbraced_append (h : Values.Unbraced front) (h' : Values.Unbraced back) :
    Values.Unbraced (front ++ back) := by
  intro pair hp
  exact (List.mem_append.mp hp).elim (h pair) (h' pair)

theorem known_of_not_mem (hx : '{' ∉ x) : Known keys x := by
  induction x with
  | nil => exact .nil
  | cons c x ih =>
    simp only [List.mem_cons, not_or] at hx
    exact .char (Ne.symm hx.1) (ih hx.2)

theorem known_hole (hk : key ∈ keys) : Known keys (hole key) := by
  simpa using Known.filled hk .nil

theorem known_append (hx : Known keys x) (ht : Known keys t) : Known keys (x ++ t) := by
  induction hx with
  | nil => exact ht
  | char hc _ ih => exact .char hc ih
  | filled hk _ ih =>
    rw [List.append_assoc]
    exact .filled hk ih

theorem fill_append (hx : Known keys x) (hv : values.Serve keys) :
    fill values (x ++ t) = fill values x ++ fill values t := by
  induction hx with
  | nil => rfl
  | char hc _ ih => rw [List.cons_append, fill_cons_of_ne hc, fill_cons_of_ne hc, ih]; rfl
  | @filled key x hk _ ih =>
    obtain ⟨hkey, hmem⟩ := hv key hk
    obtain ⟨value, hl⟩ := exists_lookup hmem
    rw [List.append_assoc, fill_hole hkey hl, fill_hole hkey hl, ih, List.append_assoc]

theorem not_brace_fill (ht : Known keys t) (hv : values.Serve keys) (hu : values.Unbraced) :
    '{' ∉ fill values t := by
  induction ht with
  | nil => simp [fill, fillFrom]
  | char hc _ ih =>
    rw [fill_cons_of_ne hc]
    simp [Ne.symm hc, ih]
  | @filled key x hk _ ih =>
    obtain ⟨hkey, hmem⟩ := hv key hk
    obtain ⟨value, hl⟩ := exists_lookup hmem
    rw [fill_hole hkey hl, List.mem_append, not_or]
    exact ⟨hu.lookup hl, ih⟩

/-- Only the values of its keys matter to a template. -/
theorem fill_congr (ht : Known keys t) (hv : values.Serve keys)
    (hsame : ∀ key ∈ keys, values'.lookup key = values.lookup key) :
    fill values' t = fill values t := by
  induction ht with
  | nil => rfl
  | char hc _ ih => rw [fill_cons_of_ne hc, fill_cons_of_ne hc, ih]
  | @filled key x hk _ ih =>
    obtain ⟨hkey, hmem⟩ := hv key hk
    obtain ⟨value, hl⟩ := exists_lookup hmem
    rw [fill_hole hkey hl, fill_hole hkey ((hsame key hk).trans hl), ih]

/-- The keys of a template other than a given one. -/
def others (key : Text) (keys : List Text) : List Text := keys.filter (· ≠ key)

/-- A template is cut at the first hole of a key, if it has one. -/
theorem Known.cut (ht : Known keys t) (key : Text) : Known (others key keys) t ∨
    ∃ a b, t = a ++ (hole key ++ b) ∧ Known (others key keys) a ∧ Known keys b := by
  induction ht with
  | nil => exact .inl .nil
  | char hc _ ih =>
    rcases ih with h | ⟨a, b, rfl, ha, hb⟩
    · exact .inl (.char hc h)
    · exact .inr ⟨_ :: a, b, rfl, .char hc ha, hb⟩
  | @filled key' t hk ht ih =>
    by_cases hkey : key' = key
    · subst hkey
      exact .inr ⟨[], t, rfl, .nil, ht⟩
    · have hmem : key' ∈ others key keys := by simp [others, hk, hkey]
      rcases ih with h | ⟨a, b, rfl, ha, hb⟩
      · exact .inl (.filled hmem h)
      · exact .inr ⟨hole key' ++ a, b, by simp, .filled hmem ha, hb⟩

/-- A text that another one stands in at one place at most, with no brace in front of it. -/
def OnePlace (f : Text → Text) : Prop :=
  (∃ u, '{' ∉ u ∧ ∀ x, f x = u) ∨ ∃ u v, '{' ∉ u ∧ ∀ x, f x = u ++ (x ++ v)

theorem OnePlace.frame {f : Text → Text} {a b : Text} (h : OnePlace f) (ha : '{' ∉ a)
    (hb : '{' ∉ b) : OnePlace fun x => a ++ f x ++ b := by
  rcases h with ⟨u, hu, hf⟩ | ⟨u, v, hu, hf⟩
  · exact .inl ⟨a ++ u ++ b, by simpa [not_or] using ⟨ha, hu, hb⟩, fun x => by simp [hf]⟩
  · exact .inr ⟨a ++ u, v ++ b, by simpa [not_or] using ⟨ha, hu⟩, fun x => by simp [hf]⟩

/-- A template with at most one hole for a key, filled with different values for that key. -/
theorem fill_once (ht : Known keys t) (honce : Once key t) (hkey : '}' ∉ key)
    (hfront : key ∉ front.map Prod.fst) (hserve : (front ++ back).Serve (others key keys))
    (hu : (front ++ back).Unbraced) :
    OnePlace fun x => fill (front ++ (key, x) :: back) t := by
  have hsame : ∀ x, ∀ key' ∈ others key keys,
      (front ++ (key, x) :: back).lookup key' = (front ++ back).lookup key' := by
    intro x key' hk
    have hne : key' ≠ key := by simpa using (List.mem_filter.mp hk).2
    rw [List.lookup_append, List.lookup_append, List.lookup_cons, beq_false_of_ne hne]
  have hlookup : ∀ x, (front ++ (key, x) :: back).lookup key = some x := by
    intro x
    have hnone : front.lookup key = none := by
      rw [List.lookup_eq_none_iff]
      intro pair hp
      have hne : key ≠ pair.1 := fun he => hfront (he ▸ List.mem_map_of_mem hp)
      simpa using hne
    rw [List.lookup_append, hnone, List.lookup_cons_self]
    rfl
  have hserve' : ∀ x, (front ++ (key, x) :: back).Serve (others key keys) := by
    intro x key' hk
    obtain ⟨hbrace, hmem⟩ := hserve key' hk
    refine ⟨hbrace, ?_⟩
    simp only [List.map_append, List.map_cons, List.mem_append, List.mem_cons] at hmem ⊢
    exact hmem.imp_right .inr
  have hfill : ∀ x y, Known (others key keys) y →
      fill (front ++ (key, x) :: back) y = fill (front ++ back) y :=
    fun x y hy => fill_congr hy hserve (hsame x)
  rcases ht.cut key with h | ⟨a, b, rfl, ha, hb⟩
  · exact .inl ⟨_, not_brace_fill h hserve hu, fun x => hfill x t h⟩
  · rcases hb.cut key with hb | ⟨c, e, rfl, -, -⟩
    · refine .inr ⟨_, fill (front ++ back) b, not_brace_fill ha hserve hu, fun x => ?_⟩
      change fill (front ++ (key, x) :: back) _ = _
      rw [fill_append ha (hserve' x), fill_hole hkey (hlookup x), hfill x a ha, hfill x b hb]
    · exact absurd honce (not_once_twice a c e)

end Template

namespace Templates

open Template

/-- The keys that have a value where a template is filled. -/
def Slot.keys : Slot → List Text
  | .type => ["name", "access", "type", "inheritances", "nl"]
  | .constructor => ["name", "access", "parameters", "nl"]
  | .method => ["name", "access", "parameters", "returns", "type", "baseType", "genericType",
      "fullType", "nl"]
  | .parameter => ["type", "name", "nl"]
  | .returns => ["type", "baseType", "genericType", "fullType", "nl"]
  | .get | .getSet | .getInit | .set | .init =>
      ["name", "access", "type", "baseType", "genericType", "fullType", "nl"]

/-- Templates that use braces for holes of their keys only. -/
def Known (ts : Templates) : Prop := ∀ slot : Slot, Template.Known slot.keys (ts.template slot)

variable {keys : List Text} {body : Text}

theorem known_summary (hnl : "nl".toList ∈ keys) (h : Template.Known keys body) :
    Template.Known keys (summary body) := by
  have hopening : Template.Known keys ("/// <summary>".toList ++ hole "nl" ++ "/// ".toList) := by
    refine known_append (known_append ?_ (known_hole hnl)) ?_
    · exact known_of_not_mem (by decide)
    · exact known_of_not_mem (by decide)
  refine known_append (known_append (known_append (known_append hopening h) ?_) ?_) ?_
  · exact known_of_not_mem (by decide)
  · exact known_hole hnl
  · exact known_of_not_mem (by decide)

theorem known_accessorSummary {verbs : Text} (hnl : "nl".toList ∈ keys)
    (hname : "name".toList ∈ keys) (hv : '{' ∉ verbs) :
    Template.Known keys (accessorSummary verbs) :=
  known_summary hnl (known_append (known_append (known_of_not_mem hv)
    (known_of_not_mem (by decide))) (known_hole hname))

theorem stock_known : stock.Known := by
  intro slot
  cases slot with
  | type =>
    refine known_summary (by decide) (known_append (known_append (known_append ?_ ?_) ?_) ?_)
    · exact known_of_not_mem (by decide)
    · exact known_hole (by decide)
    · exact known_of_not_mem (by decide)
    · exact known_hole (by decide)
  | constructor =>
    refine known_append (known_summary (by decide) (known_append (known_append ?_ ?_) ?_)) ?_
    · exact known_of_not_mem (by decide)
    · exact known_hole (by decide)
    · exact known_of_not_mem (by decide)
    · exact known_hole (by decide)
  | method =>
    refine known_append (known_append (known_summary (by decide) ?_) ?_) ?_
    · exact known_hole (by decide)
    · exact known_hole (by decide)
    · exact known_hole (by decide)
  | parameter =>
    refine known_append (known_append (known_append (known_append ?_ ?_) ?_) ?_) ?_
    · exact known_of_not_mem (by decide)
    · exact known_hole (by decide)
    · exact known_of_not_mem (by decide)
    · exact known_hole (by decide)
    · exact known_of_not_mem (by decide)
  | returns =>
    refine known_append (known_append ?_ ?_) ?_
    · exact known_of_not_mem (by decide)
    · exact known_hole (by decide)
    · exact known_of_not_mem (by decide)
  | get => exact known_accessorSummary (by decide) (by decide) (by decide)
  | getSet => exact known_accessorSummary (by decide) (by decide) (by decide)
  | getInit => exact known_accessorSummary (by decide) (by decide) (by decide)
  | set => exact known_accessorSummary (by decide) (by decide) (by decide)
  | init => exact known_accessorSummary (by decide) (by decide) (by decide)

/-- Templates of declarations with parameters say at most once where these go. -/
structure Single (ts : Templates) : Prop where
  constructor : Once "parameters" ts.constructor
  method : Once "parameters" ts.method

theorem stock_single : stock.Single := ⟨by decide +kernel, by decide +kernel⟩

end Templates
end TripleSlash
