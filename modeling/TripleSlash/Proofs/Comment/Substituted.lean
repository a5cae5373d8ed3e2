import Mathlib.Data.List.Basic
import TripleSlash.Comment.Pending
import TripleSlash.Proofs.Comment.Slots
import TripleSlash.Proofs.Declaration.Captured
import TripleSlash.Proofs.Parameter
import TripleSlash.Proofs.Template.Fill
import TripleSlash.Proofs.Text.Substituted

/-! Comments with their line breaks written in another way. Where templates and lines have no line
breaks of their own, a comment has those of its line break only, so it is the same comment with
another line break. -/
namespace TripleSlash

open Template Comment Text

variable {σ : Char → Text} {ts : Templates} {values : Values} {key lb nl line t : Text}
  {d : Declaration} {p : Pending} {r : TypeRef}

namespace Template

/-- Values with their line breaks written in another way. -/
def Values.subst (σ : Char → Text) (values : Values) : Values :=
  values.map fun pair => (pair.1, Text.subst σ pair.2)

theorem lookup_subst : (values.subst σ).lookup key = (values.lookup key).map (Text.subst σ) := by
  induction values with
  | nil => rfl
  | cons pair values ih =>
    obtain ⟨key', value⟩ := pair
    by_cases hk : key = key'
    · simp [Values.subst, hk]
    · have hne : (key == key') = false := beq_false_of_ne hk
      rw [List.lookup_cons, hne, ← ih]
      simp [Values.subst, List.lookup_cons, hne]

theorem subst_append_values (a b : Values) :
    Values.subst σ (a ++ b) = Values.subst σ a ++ Values.subst σ b := List.map_append

theorem subst_values_of_spares (h : ∀ pair ∈ values, Spares σ pair.2) :
    values.subst σ = values := by
  refine (List.map_congr_left fun pair hp => ?_).trans (List.map_id values)
  rw [subst_of_spares (h pair hp)]
  rfl

theorem holeAt?_subst : holeAt? (values.subst σ) t =
    (holeAt? values t).map fun found => (Text.subst σ found.1, found.2) := by
  simp only [holeAt?, lookup_subst]
  split
  · cases values.lookup (t.takeWhile (· != '}')) <;> rfl
  · rfl

theorem fillFrom_subst (h : Spares σ t) (n : Nat) :
    fillFrom (values.subst σ) n t = Text.subst σ (fillFrom values n t) := by
  induction t generalizing n with
  | nil => cases n <;> rfl
  | cons c t ih =>
    have hrest := ih (spares_of_subset (List.subset_cons_self c t) h)
    cases n with
    | succ n => exact hrest n
    | zero =>
      simp only [fillFrom, holeAt?_subst]
      cases hopen : if c = '{' then holeAt? values t else none with
      | none =>
        have hopen' : (if c = '{' then (holeAt? values t).map fun found =>
            (Text.subst σ found.1, found.2) else none) = none := by
          split at hopen <;> simp_all
        rw [hopen', subst_cons, h c (by simp), hrest]
        rfl
      | some found =>
        have hopen' : (if c = '{' then (holeAt? values t).map fun found =>
            (Text.subst σ found.1, found.2) else none) = some (Text.subst σ found.1, found.2) := by
          split at hopen <;> simp_all
        rw [hopen']
        simp [hrest]

/-- A template without line breaks is filled with the same values, written in another way. -/
theorem fill_subst (h : Spares σ t) : fill (values.subst σ) t = Text.subst σ (fill values t) :=
  fillFrom_subst h 0

end Template

theorem TypeRef.inner_subset (h : r.Within line) : r.inner ⊆ line := by
  unfold inner
  split
  next args hg =>
    have hargs : args ⊆ line := fun c hc => (h.generic _ hg).subset (by simp [hc])
    split
    · exact List.Subset.trans (List.dropLast_subset args) hargs
    · exact List.nil_subset line
  next => exact List.nil_subset line

theorem TypeRef.full_subset (h : r.Within line) : r.full ⊆ line := by
  refine List.append_subset.mpr ⟨h.base.subset, ?_⟩
  cases hg : r.generic with
  | none => exact List.nil_subset line
  | some g => exact (h.generic g hg).subset

namespace Comment

/-- Templates without anything that is written in another way. -/
def SparedBy (σ : Char → Text) (ts : Templates) : Prop := ∀ slot, Spares σ (ts.template slot)

theorem headValues_subst (hσ : Rebreaks σ) (hl : Spares σ line) (hd : d.Within line) :
    (headValues d).subst σ = headValues d := by
  apply subst_values_of_spares
  intro pair hp
  simp only [headValues, List.mem_cons, List.not_mem_nil, or_false] at hp
  rcases hp with rfl | rfl
  · exact spares_of_isInfix hd.name hl
  · exact hσ.spares (by cases d.access <;> decide) (by cases d.access <;> decide)

theorem typeValues_subst (hl : Spares σ line) (hr : r.Within line) :
    (typeValues r).subst σ = typeValues r := by
  apply subst_values_of_spares
  intro pair hp
  simp only [typeValues, List.mem_cons, List.not_mem_nil, or_false] at hp
  rcases hp with rfl | rfl | rfl | rfl
  · exact spares_of_isInfix hr.written hl
  · exact spares_of_isInfix hr.base hl
  · exact spares_of_subset (TypeRef.inner_subset hr) hl
  · exact spares_of_subset (TypeRef.full_subset hr) hl

theorem parameterEntry_subst {p : Parameter} (hts : SparedBy σ ts) (htype : Spares σ p.type)
    (hname : Spares σ p.name) :
    parameterEntry ts (Text.subst σ nl) p = Text.subst σ (parameterEntry ts nl p) := by
  have hvalues : parameterValues p ++ lineValues (Text.subst σ nl) =
      (parameterValues p ++ lineValues nl).subst σ := by
    simp [parameterValues, lineValues, Values.subst, subst_of_spares htype, subst_of_spares hname]
  have hfill : fill ((parameterValues p ++ lineValues nl).subst σ) ts.parameter = _ :=
    fill_subst (hts .parameter)
  rw [parameterEntry, hvalues, parameterEntry, subst_append]
  exact congrArg (_ ++ ·) hfill

theorem parameterEntries_subst (hts : SparedBy σ ts) (ht : Spares σ t) :
    parameterEntries ts (Text.subst σ nl) t = Text.subst σ (parameterEntries ts nl t) := by
  have hentry : ∀ p ∈ Parameter.parseList t,
      parameterEntry ts (Text.subst σ nl) p = Text.subst σ (parameterEntry ts nl p) := by
    intro p hp
    obtain ⟨htype, hname⟩ := Parameter.infix_of_mem_parseList hp
    exact parameterEntry_subst hts (spares_of_isInfix htype ht) (spares_of_isInfix hname ht)
  exact (List.flatMap_congr hentry).trans List.flatMap_assoc.symm

theorem parameterBlock_subst {ps : ParameterText} (hσ : Rebreaks σ) (hts : SparedBy σ ts)
    (hps : Spares σ ps.raw) :
    parameterBlock ts (Text.subst σ nl) ps = Text.subst σ (parameterBlock ts nl ps) := by
  have hmarker : Text.subst σ marker = marker :=
    subst_of_spares (hσ.spares (by decide) (by decide))
  rw [parameterBlock, parameterEntries_subst hts hps, parameterBlock, subst_append]
  split
  · rfl
  · rw [hmarker]

theorem returnsEntry_subst (hts : SparedBy σ ts) (hl : Spares σ line) (hr : r.Within line) :
    returnsEntry ts (Text.subst σ nl) r = Text.subst σ (returnsEntry ts nl r) := by
  have hvalues : typeValues r ++ lineValues (Text.subst σ nl) =
      (typeValues r ++ lineValues nl).subst σ := by
    rw [subst_append_values, typeValues_subst hl hr]
    rfl
  have hfill : fill ((typeValues r ++ lineValues nl).subst σ) ts.returns = _ :=
    fill_subst (hts .returns)
  unfold returnsEntry
  split
  · rfl
  · rw [hvalues, subst_append]
    exact congrArg (_ ++ ·) hfill

theorem kindValues_subst (hσ : Rebreaks σ) (hts : SparedBy σ ts) (hl : Spares σ line)
    {kind : Declaration.Kind} (hk : kind.Within line) :
    kindValues ts (Text.subst σ nl) kind = (kindValues ts nl kind).subst σ := by
  cases kind with
  | type keyword bases =>
    have hkeyword : Spares σ keyword.spelling :=
      hσ.spares (by cases keyword <;> decide) (by cases keyword <;> decide)
    simp [kindValues, Values.subst, subst_of_spares hkeyword,
      subst_of_spares (spares_of_isInfix hk hl)]
  | constructor ps =>
    simp [kindValues, Values.subst, parameterBlock_subst hσ hts (spares_of_isInfix hk hl)]
  | method isStatic isAsync returns ps =>
    have hrest := typeValues_subst hl hk.1
    unfold Values.subst at hrest
    simp [kindValues, Values.subst, parameterBlock_subst hσ hts (spares_of_isInfix hk.2 hl),
      returnsEntry_subst hts hl hk.1, hrest]
  | property type accessors => exact (typeValues_subst hl hk).symm

theorem template?_spares (hts : SparedBy σ ts) {kind : Declaration.Kind}
    (h : template? ts kind = some t) : Spares σ t := by
  obtain ⟨slot, -, rfl⟩ := exists_slot h
  exact hts slot

theorem indent_spares (hl : Spares σ line) (hd : d.Within line) : Spares σ d.indent := by
  rw [hd.indent]
  exact spares_of_subset (List.takeWhile_sublist _).subset hl

theorem newline_subst (hl : Spares σ line) (hd : d.Within line) (lb : Text) :
    newline (Text.subst σ lb) d.indent = Text.subst σ (newline lb d.indent) := by
  rw [newline, newline, subst_append, subst_of_spares (indent_spares hl hd)]

/-- A comment is the same for another line break, but for its line breaks. -/
theorem render?_subst (hσ : Rebreaks σ) (hts : SparedBy σ ts) (hl : Spares σ line)
    (hd : d.Within line) :
    render? ts (Text.subst σ lb) d = (render? ts lb d).map (Text.subst σ) := by
  have hvalues : ∀ nl, headValues d ++ kindValues ts (Text.subst σ nl) d.kind ++
      lineValues (Text.subst σ nl) =
        (headValues d ++ kindValues ts nl d.kind ++ lineValues nl).subst σ := by
    intro nl
    rw [subst_append_values, subst_append_values, headValues_subst hσ hl hd,
      kindValues_subst hσ hts hl hd.kind]
    rfl
  simp only [render?, body?, Option.map_map, newline_subst hl hd, hvalues]
  cases ht : template? ts d.kind with
  | none => rfl
  | some t =>
    simp [fill_subst (template?_spares hts ht), subst_of_spares (indent_spares hl hd)]

namespace Pending

/-- A comment that waits, with its line breaks written in another way. -/
def subst (σ : Char → Text) (p : Pending) : Pending :=
  { p with
    head := Text.subst σ p.head
    entries := Text.subst σ p.entries
    newline := Text.subst σ p.newline }

theorem accept_subst (hts : SparedBy σ ts) (hl : Spares σ line) :
    (p.subst σ).accept ts line = (p.accept ts line).subst σ := by
  have hinside : Spares σ (Parens.inside p.depth line) :=
    spares_of_isInfix (Parens.inside_prefix _ _).isInfix hl
  simp [accept, subst, parameterEntries_subst hts hinside]

theorem assembled_subst (hσ : Rebreaks σ) :
    (p.subst σ).assembled = Text.subst σ p.assembled :=
  hσ.replaceFirst_subst (by decide) (by decide) p.entries p.head

theorem finish?_subst (hσ : Rebreaks σ) (hts : SparedBy σ ts) (hl : Spares σ line) :
    (p.subst σ).finish? ts line = (p.finish? ts line).map (Text.subst σ) := by
  unfold finish?
  rw [accept_subst hts hl, assembled_subst hσ]
  change (if Parens.closes p.depth line = true then _ else _) = _
  split <;> rfl

end Pending
end Comment
end TripleSlash
