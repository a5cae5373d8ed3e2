import TripleSlash.Proofs.Document.Blocks

/-! The line breaks of written lines. A pass that follows the first break of a document leaves that
break first, since its comments begin with a line of their own that ends in it. -/
namespace TripleSlash

open Comment Template

variable {br : LineBreak} {t x : Text} {d : Declaration} {line : Text}

/-- A text whose first line ends in `br`, without a brace in it. -/
def Opens (br : LineBreak) (t : Text) : Prop :=
  ∃ x rest, t = x ++ (br.text ++ rest) ∧ '\n' ∉ x ∧ '{' ∉ x ∧ x.getLast? ≠ some '\r'

theorem findSome?_of_opens (h : Opens br t) :
    (Line.ofText t).findSome? Line.ending = some br := by
  obtain ⟨x, rest, rfl, hfeed, -, hreturn⟩ := h
  have hplain : (⟨x, some br⟩ : Line).Plain := ⟨hfeed, fun _ => hreturn, by simp⟩
  have hcut := Line.ofText_full_append (t := rest) hplain (by simp)
  rw [show (⟨x, some br⟩ : Line).full ++ rest = x ++ (br.text ++ rest) by simp [Line.full]] at hcut
  simp [hcut]

/-- The marker does not stand in the first line. -/
theorem opens_replaceFirst (new : Text) (h : Opens br t) :
    Opens br (Text.replaceFirst marker new t) := by
  obtain ⟨x, rest, rfl, hfeed, hbrace, hreturn⟩ := h
  have hbreak : '{' ∉ br.text := by cases br <;> decide
  have hmarker : marker = '{' :: ("additional parameters".toList ++ ['}']) := rfl
  refine ⟨x, Text.replaceFirst marker new rest, ?_, hfeed, hbrace, hreturn⟩
  rw [hmarker, Text.replaceFirst_append hbrace, Text.replaceFirst_append hbreak]

/-- Every stock template of a declaration is a summary first. -/
theorem template?_stock {kind : Declaration.Kind} (h : template? .stock kind = some t) :
    "/// <summary>".toList ++ hole "nl" <+: t := by
  obtain ⟨slot, hslot, rfl⟩ := exists_slot h
  obtain ⟨hparameter, hreturns⟩ := kind.slot?_ne_part
  cases slot with
  | parameter => exact absurd hslot hparameter
  | returns => exact absurd hslot hreturns
  | _ => decide +kernel

theorem lookup_append_lineValues {values : Values} (nl : Text) (h : FlowingValues values) :
    (values ++ lineValues nl).lookup "nl".toList = some nl := by
  have hnone : values.lookup "nl".toList = none := by
    rw [List.lookup_eq_none_iff]
    intro pair hp
    simpa using Ne.symm (h pair hp).1
  rw [List.lookup_append, hnone]
  rfl

theorem opens_render? (hl : '\n' ∉ line) (h : d.Within line)
    (hr : render? .stock br.text d = some x) : Opens br x := by
  obtain ⟨body, hbody, rfl⟩ := Option.map_eq_some_iff.mp hr
  obtain ⟨t, ht, rfl⟩ := Option.map_eq_some_iff.mp hbody
  obtain ⟨rest, rfl⟩ := template?_stock ht
  have hi := indent_within h
  have hkind : FlowingValues (kindValues .stock (newline br.text d.indent) d.kind) :=
    flowingValues_kind Templates.stock_commenting.lined hi hl h.kind
  have hvalues := flowingValues_append (flowingValues_head hl h) hkind
  have hlookup := lookup_append_lineValues (newline br.text d.indent) hvalues
  generalize headValues d ++ _ ++ lineValues _ = values at hlookup ⊢
  have hfill : fill values ("/// <summary>".toList ++ hole "nl" ++ rest) =
      "/// <summary>".toList ++ (newline br.text d.indent ++ fill values rest) := by
    rw [List.append_assoc, fill_append_of_not_mem (by decide), fill_hole (by decide) hlookup]
  rw [hfill]
  refine ⟨d.indent ++ "/// <summary>".toList, d.indent ++ (fill values rest ++ br.text),
    ?_, ?_, ?_, ?_⟩
  · simp [newline]
  · intro hm
    rcases List.mem_append.mp hm with hm | hm
    · exact noFeed_indent hi hm
    · exact absurd hm (by decide)
  · intro hm
    rcases List.mem_append.mp hm with hm | hm
    · exact absurd (hi _ hm) (by decide)
    · exact absurd hm (by decide)
  · simp

/-- Lines whose line breaks are all the same. -/
def Line.Alike (lines : List Line) : Prop :=
  ∃ br, ∀ l ∈ lines, l.ending ≠ none → l.ending = some br

theorem Line.ending_of_alike {lines : List Line} (h : Alike lines) {l : Line} (hl : l ∈ lines) :
    l.ending = none ∨ l.ending = some (firstBreak lines) := by
  obtain ⟨br, hall⟩ := h
  cases he : l.ending with
  | none => exact .inl rfl
  | some b =>
    have hb := hall l hl (by simp [he])
    cases hfirst : lines.findSome? ending with
    | none => simp [List.findSome?_eq_none_iff.mp hfirst l hl] at he
    | some c =>
      obtain ⟨l', hl', hc⟩ := List.exists_of_findSome?_eq_some hfirst
      have hc' := hall l' hl' (by simp [hc])
      right
      rw [firstBreak, hfirst, ← he, hb, ← hc', hc]
      rfl

namespace Scan

variable {o : Options} {s : State} {i : Nat} {doc : List Line}

theorem ensures_opens (ht : o.templates = .stock) (hb : o.lineBreak = br.text) :
    o.Ensures (Opens br) where
  rendered _ _ _ hl hd hr :=
    opens_render? hl (Declaration.recognize?_within hd) (by rwa [ht, hb] at hr)
  completed _ entries h _ := opens_replaceFirst entries h

/-- Among line breaks of one kind no other comes first. -/
theorem findSome?_written (ht : o.templates = .stock) (hb : o.lineBreak = br.text)
    (hp : Line.Proper doc) (hs : s.Sound (Opens br) br)
    (he : ∀ l ∈ doc, l.ending = none ∨ l.ending = some br) :
    (written o s i doc).findSome? Line.ending = none ∨
      (written o s i doc).findSome? Line.ending = some br := by
  have ho : o.Commenting br := ⟨ht ▸ Templates.stock_commenting.lined, hb⟩
  have hQ := ensures_opens ht hb
  induction doc generalizing s i with
  | nil => exact .inl rfl
  | cons l doc ih =>
    have hrest := @ih (step o s i l.text).state (i + 1) hp.2.2
      (sound_step ho hQ hp.1.noFeed hs) fun l' hl' => he l' (by simp [hl'])
    rw [written, List.findSome?_append, List.findSome?_append]
    cases ha : above o s i ((l :: doc).map Line.text) with
    | some text =>
      have hopens := ensures_above ho hQ (noFeed_of_proper hp) hs ha
      right
      rw [Option.getD_some, findSome?_of_opens hopens]
      rfl
    | none =>
      have hkept : (kept o l).findSome? Line.ending = none ∨
          (kept o l).findSome? Line.ending = some br := by
        unfold kept
        split
        · exact .inl rfl
        · simpa using he l (by simp)
      rcases hkept with hk | hk
      · simpa [hk, Line.ofText] using hrest
      · simp [hk, Line.ofText]

end Scan
end TripleSlash
