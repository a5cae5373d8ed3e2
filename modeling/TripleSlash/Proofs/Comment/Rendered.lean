import TripleSlash.Comment.Pending
import TripleSlash.Proofs.Comment.Slots
import TripleSlash.Proofs.Declaration.Captured
import TripleSlash.Proofs.Parameter
import TripleSlash.Proofs.Template.Fill
import TripleSlash.Proofs.Text.Replaced

/-! Comments that are rendered from templates of comments are blocks of comment lines, whether
their declaration has its parameters on one line or on several. -/
namespace TripleSlash

open Template Comment

variable {ts : Templates} {br : LineBreak} {indent line t x : Text} {d : Declaration}

/-- Templates whose lines are comments. -/
def Templates.Commenting (ts : Templates) : Prop :=
  ∀ slot, Template.Commenting (ts.template slot)

theorem Templates.stock_commenting : stock.Commenting := by
  intro slot
  cases slot <;> decide +kernel

/-- Templates whose lines are comments, those behind line feeds of their own included. -/
def Templates.Lined (ts : Templates) : Prop := ∀ slot, Template.Lined (ts.template slot)

theorem Templates.Commenting.lined (h : ts.Commenting) : ts.Lined := fun slot => (h slot).lined

theorem isComment_of_lined (h : Template.Lined t) : isComment t = true := by
  obtain ⟨piece, pieces, hp, rest, rfl⟩ := splitOn_head (hole_ne_nil "nl".toList) t
  exact isComment_append (h.pieces piece (by rw [hp]; simp))

theorem noFeed_of_isInfix (hl : '\n' ∉ line) (h : x <:+: line) : '\n' ∉ x :=
  fun hm => hl (h.subset hm)

theorem noFeed_indent (hi : ∀ c ∈ indent, isIndent c = true) : '\n' ∉ indent :=
  fun hm => absurd (hi _ hm) (by decide)

theorem TypeRef.noFeed_full {r : TypeRef} (hl : '\n' ∉ line) (h : r.Within line) :
    '\n' ∉ r.full := by
  obtain ⟨written, base, generic⟩ := r
  simp only [full, List.mem_append, not_or]
  refine ⟨noFeed_of_isInfix hl h.base, ?_⟩
  cases generic with
  | none => simp
  | some g => exact noFeed_of_isInfix hl (h.generic g rfl)

theorem TypeRef.noFeed_inner {r : TypeRef} (hl : '\n' ∉ line) (h : r.Within line) :
    '\n' ∉ r.inner := by
  unfold inner
  split
  next args hg =>
    have hargs := noFeed_of_isInfix hl (h.generic _ hg)
    simp only [List.mem_cons, not_or] at hargs
    split
    · exact fun hm => hargs.2 (List.dropLast_subset args hm)
    · simp
  next => simp

namespace Comment

/-- Values for other keys than `nl`, whose further lines are comments. -/
def FlowingValues (values : Values) : Prop :=
  ∀ pair ∈ values, pair.1 ≠ "nl".toList ∧ Flowing pair.2

theorem flowingValues_nil : FlowingValues [] := by simp [FlowingValues]

theorem flowingValues_cons {values : Values} {key : Text} (hk : key ≠ "nl".toList)
    (hx : Flowing x) (h : FlowingValues values) : FlowingValues ((key, x) :: values) := by
  intro pair hp
  rcases List.mem_cons.mp hp with rfl | hp
  · exact ⟨hk, hx⟩
  · exact h pair hp

theorem flowingValues_append {values values' : Values} (h : FlowingValues values)
    (h' : FlowingValues values') : FlowingValues (values ++ values') := by
  intro pair hp
  exact (List.mem_append.mp hp).elim (h pair) (h' pair)

/-- Values that are no line breaks, with the one that is. -/
theorem keep_append_lineValues {values : Values} (h : FlowingValues values) :
    (values ++ lineValues (newline br.text indent)).Keep br indent := by
  intro pair hp
  rcases List.mem_append.mp hp with hp | hp
  · exact ⟨fun hk => absurd hk (h pair hp).1, fun _ => (h pair hp).2⟩
  · obtain rfl : pair = ("nl".toList, newline br.text indent) := by simpa [lineValues] using hp
    exact ⟨fun _ => rfl, fun hk => absurd rfl hk⟩

theorem flowing_of_isInfix (hl : '\n' ∉ line) (h : x <:+: line) : Flowing x :=
  flowing_of_noFeed (noFeed_of_isInfix hl h)

theorem flowingValues_type {r : TypeRef} (hl : '\n' ∉ line) (h : r.Within line) :
    FlowingValues (typeValues r) :=
  flowingValues_cons (by decide) (flowing_of_isInfix hl h.written) <|
  flowingValues_cons (by decide) (flowing_of_isInfix hl h.base) <|
  flowingValues_cons (by decide) (flowing_of_noFeed (TypeRef.noFeed_inner hl h)) <|
  flowingValues_cons (by decide) (flowing_of_noFeed (TypeRef.noFeed_full hl h)) flowingValues_nil

/-- A filled template, as a further line of a comment. -/
theorem flowing_entry {values : Values} (hi : ∀ c ∈ indent, isIndent c = true)
    (hv : FlowingValues values) (ht : Template.Lined t) :
    Flowing (newline br.text indent ++
      fill (values ++ lineValues (newline br.text indent)) t) :=
  flowing_newline hi (isComment_fill (isComment_of_lined ht))
    (flowing_fill hi (keep_append_lineValues hv) ht)

theorem flowing_parameterEntries (hts : ts.Lined) (hi : ∀ c ∈ indent, isIndent c = true)
    (hx : '\n' ∉ x) : Flowing (parameterEntries ts (newline br.text indent) x) := by
  apply flowing_flatMap
  intro p hp
  obtain ⟨htype, hname⟩ := Parameter.infix_of_mem_parseList hp
  apply flowing_entry hi _ (hts .parameter)
  exact flowingValues_cons (by decide) (flowing_of_isInfix hx htype) <|
    flowingValues_cons (by decide) (flowing_of_isInfix hx hname) flowingValues_nil

theorem flowing_parameterBlock {ps : ParameterText} (hts : ts.Lined)
    (hi : ∀ c ∈ indent, isIndent c = true) (hps : '\n' ∉ ps.raw) :
    Flowing (parameterBlock ts (newline br.text indent) ps) := by
  apply flowing_append (flowing_parameterEntries hts hi hps)
  split
  · exact flowing_of_noFeed (by simp)
  · exact flowing_of_noFeed (by decide)

theorem flowing_returnsEntry {r : TypeRef} (hts : ts.Lined)
    (hi : ∀ c ∈ indent, isIndent c = true) (hl : '\n' ∉ line) (h : r.Within line) :
    Flowing (returnsEntry ts (newline br.text indent) r) := by
  unfold returnsEntry
  split
  · exact flowing_of_noFeed (by simp)
  · exact flowing_entry hi (flowingValues_type hl h) (hts .returns)

theorem flowingValues_kind (hts : ts.Lined) (hi : ∀ c ∈ indent, isIndent c = true)
    (hl : '\n' ∉ line) {kind : Declaration.Kind} (h : kind.Within line) :
    FlowingValues (kindValues ts (newline br.text indent) kind) := by
  cases kind with
  | type keyword bases =>
    have hk : '\n' ∉ keyword.spelling := by cases keyword <;> decide
    exact flowingValues_cons (by decide) (flowing_of_noFeed hk) <|
      flowingValues_cons (by decide) (flowing_of_isInfix hl h) flowingValues_nil
  | constructor ps =>
    exact flowingValues_cons (by decide)
      (flowing_parameterBlock hts hi (noFeed_of_isInfix hl h)) flowingValues_nil
  | method isStatic isAsync returns ps =>
    exact flowingValues_cons (by decide)
        (flowing_parameterBlock hts hi (noFeed_of_isInfix hl h.2)) <|
      flowingValues_cons (by decide) (flowing_returnsEntry hts hi hl h.1) <|
      flowingValues_type hl h.1
  | property type accessors => exact flowingValues_type hl h

theorem flowingValues_head (hl : '\n' ∉ line) (h : d.Within line) :
    FlowingValues (headValues d) := by
  have ha : '\n' ∉ d.access.spelling := by cases d.access <;> decide
  exact flowingValues_cons (by decide) (flowing_of_isInfix hl h.name) <|
    flowingValues_cons (by decide) (flowing_of_noFeed ha) flowingValues_nil

theorem template?_lined (hts : ts.Lined) {kind : Declaration.Kind}
    (h : template? ts kind = some t) : Template.Lined t := by
  obtain ⟨slot, -, rfl⟩ := exists_slot h
  exact hts slot

theorem indent_within (h : d.Within line) : ∀ c ∈ d.indent, isIndent c = true :=
  h.indent ▸ List.all_eq_true.mp List.all_takeWhile

/-- What is rendered for a declaration is a block. -/
theorem block_render? (hts : ts.Lined) (hl : '\n' ∉ line) (h : d.Within line)
    (hr : render? ts br.text d = some x) : Block x := by
  obtain ⟨body, hbody, rfl⟩ := Option.map_eq_some_iff.mp hr
  obtain ⟨t, ht, rfl⟩ := Option.map_eq_some_iff.mp hbody
  have hi := indent_within h
  have htc := template?_lined hts ht
  refine block_of_flowing br
    (isComment_indent_append hi (isComment_fill (isComment_of_lined htc)))
    (flowing_append (flowing_of_noFeed (noFeed_indent hi)) ?_)
  exact flowing_fill hi (keep_append_lineValues
    (flowingValues_append (flowingValues_head hl h) (flowingValues_kind hts hi hl h.kind))) htc

/-- Entries in the place of the marker leave a block a block. The marker begins with a brace, so
it stands behind the slashes of its line. -/
theorem block_replaceFirst (hx : Block x) (ht : Flowing t) :
    Block (Text.replaceFirst marker t x) := by
  have hmarker : marker = '{' :: ("additional parameters".toList ++ ['}']) := rfl
  rcases Text.replaceFirst_cases t x (hmarker ▸ List.cons_ne_nil _ _) with he | ⟨a, b, hab, he⟩
  · rwa [he]
  · have hcut : ∀ y, isComment (y ++ (marker ++ b)) = true → isComment y = true := by
      intro y hy
      rw [hmarker] at hy
      exact isComment_of_append_cons hy (by decide) (by decide)
    have hlast : b.getLast? = some '\n' := by
      have hended := hx.ended
      cases b with
      | nil => simp [hab, hmarker] at hended
      | cons c b => simpa [hab, List.getLast?_append] using hended
    have hbefore : Flowing a := by
      rintro u v rfl
      rcases hx.further u (v ++ (marker ++ b)) (by simp [hab]) with hnil | hc
      · simp [hmarker] at hnil
      · exact hcut v hc
    have hbehind : ∀ u v, b = u ++ '\n' :: v → v = [] ∨ isComment v = true := by
      rintro u v rfl
      exact hx.further (a ++ (marker ++ u)) v (by simp [hab])
    rw [he]
    refine ⟨isComment_append (hcut a (hab ▸ hx.first)), ?_, ?_⟩
    · intro u v huv
      rw [← List.append_assoc] at huv
      rcases List.append_eq_append_iff.mp huv with ⟨z, -, hz⟩ | ⟨z, hz, hv⟩
      · exact hbehind z v hz
      · cases z with
        | nil => exact hbehind [] v hv.symm
        | cons c z =>
          obtain ⟨rfl, rfl⟩ := List.cons_eq_cons.mp hv
          exact .inr (isComment_append (flowing_append hbefore ht u z hz))
    · cases b with
      | nil => simp at hlast
      | cons c b => simpa [List.getLast?_append] using hlast

end Comment
end TripleSlash
