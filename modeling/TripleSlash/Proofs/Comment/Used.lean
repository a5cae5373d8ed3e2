import TripleSlash.Proofs.Comment.Listed
import TripleSlash.Proofs.Comment.Slots

/-! Which templates say something in a comment. Two sets of templates that agree on these make the
same comment. -/
namespace TripleSlash

open Templates

variable {ts ts' : Templates} {d : Declaration} {ps : List Parameter} {lb nl : Text}
  {below : List Text}

/-- The templates that say something in the comment of a declaration with some parameters. -/
inductive Declaration.Uses (d : Declaration) (ps : List Parameter) : Slot → Prop where
  /-- Its own one, which its kind and, for a property, its accessors choose. -/
  | kind {slot : Slot} (h : d.kind.slot? = some slot) : Uses d ps slot
  /-- The one of parameters, if there is any. -/
  | parameter (hd : d.parameters?.isSome = true) (hps : ps ≠ []) : Uses d ps .parameter
  /-- The one of returned values, if the method returns something. -/
  | returns {isStatic isAsync : Bool} {r : TypeRef} {raw : ParameterText}
      (hd : d.kind = .method isStatic isAsync r raw) (hr : r.written ≠ "void".toList) :
      Uses d ps .returns

/-- The same text stands under every name that a comment uses. -/
def Templates.Agree (ts ts' : Templates) (d : Declaration) (ps : List Parameter) : Prop :=
  ∀ slot, d.Uses ps slot → ts.template slot = ts'.template slot

namespace Comment

theorem template?_congr (h : ts.Agree ts' d ps) : template? ts d.kind = template? ts' d.kind := by
  rw [template?_eq, template?_eq]
  exact Option.map_congr fun slot hslot => h slot (.kind hslot)

theorem entries_congr (h : ps ≠ [] → ts.parameter = ts'.parameter) :
    entries ts nl ps = entries ts' nl ps := by
  cases ps with
  | nil => rfl
  | cons p ps =>
    have hentry : parameterEntry ts nl = parameterEntry ts' nl := by
      funext p
      rw [parameterEntry, parameterEntry, h (by simp)]
    rw [entries, entries, hentry]

theorem returnsEntry_congr {r : TypeRef}
    (h : r.written ≠ "void".toList → ts.returns = ts'.returns) :
    returnsEntry ts nl r = returnsEntry ts' nl r := by
  unfold returnsEntry
  split
  · rfl
  next hr => rw [h fun hvoid => hr (by simp [TypeRef.isVoid, hvoid])]

theorem parameterBlock_congr {raw : ParameterText} (h : ts.Agree ts' d (d.listed below))
    (hd : d.parameters? = some raw) :
    parameterBlock ts nl raw = parameterBlock ts' nl raw := by
  have hlisted : Parameter.parseList raw.raw ≠ [] → d.listed below ≠ [] := by
    simp only [Declaration.listed, Declaration.rawParameters, hd]
    exact fun hps => List.append_ne_nil_of_left_ne_nil hps _
  have hentries : entries ts nl (Parameter.parseList raw.raw) = entries ts' nl _ :=
    entries_congr fun hps =>
      h .parameter (.parameter (Option.isSome_of_eq_some hd) (hlisted hps))
  exact congrArg (· ++ _) hentries

theorem kindValues_congr (h : ts.Agree ts' d (d.listed below)) :
    kindValues ts nl d.kind = kindValues ts' nl d.kind := by
  cases hk : d.kind with
  | type keyword bases => rfl
  | constructor raw =>
    rw [kindValues, kindValues, parameterBlock_congr h (by rw [Declaration.parameters?, hk])]
  | method isStatic isAsync r raw =>
    have hreturns : returnsEntry ts nl r = returnsEntry ts' nl r :=
      returnsEntry_congr fun hr => h .returns (.returns hk hr)
    rw [kindValues, kindValues, hreturns,
      parameterBlock_congr h (by rw [Declaration.parameters?, hk])]
  | property type accessors => rfl

theorem render?_congr (h : ts.Agree ts' d (d.listed below)) :
    render? ts lb d = render? ts' lb d := by
  rw [render?, body?, template?_congr h, kindValues_congr h]
  rfl

/-- Templates that agree on what a comment uses make the same comment. -/
theorem complete?_congr (h : ts.Agree ts' d (d.listed below)) :
    complete? ts lb d below = complete? ts' lb d below := by
  rw [complete?, complete?, render?_congr h]
  cases ho : d.isOpen with
  | false => rfl
  | true =>
    have hparameters : d.parameters?.isSome = true := by
      obtain ⟨raw, hraw, -⟩ := (Option.any_eq_true _ _).mp ho
      exact Option.isSome_of_eq_some hraw
    have hentries : entries ts (newline lb d.indent) (d.listedBelow below) =
        entries ts' (newline lb d.indent) (d.listedBelow below) :=
      entries_congr fun hps =>
        h .parameter (.parameter hparameters (List.append_ne_nil_of_right_ne_nil _ hps))
    rw [hentries]

end Comment
end TripleSlash
