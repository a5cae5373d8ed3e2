import TripleSlash.Comment.Basic

/-! Which of the templates a declaration uses. It is chosen by the kind of the declaration alone. -/
namespace TripleSlash

open Templates

/-- The template for a property with some accessors, if there is one. -/
def Accessors.slot? : Accessors → Option Slot
  | ⟨true, false, false⟩ => some .get
  | ⟨true, true, false⟩ => some .getSet
  | ⟨true, false, true⟩ => some .getInit
  | ⟨false, true, false⟩ => some .set
  | ⟨false, false, true⟩ => some .init
  | _ => none

/-- The template for a kind of declaration, if there is one. -/
def Declaration.Kind.slot? : Declaration.Kind → Option Slot
  | .type _ _ => some .type
  | .constructor _ => some .constructor
  | .method _ _ _ _ => some .method
  | .property _ accessors => accessors.slot?

/-- There is a template for each kind of declaration, but for properties only if they have an
accessor, and not both a setter and an initializer. -/
def Declaration.Kind.Templated (kind : Declaration.Kind) : Prop :=
  ∀ type accessors, kind = .property type accessors →
    (accessors.get ∨ accessors.set ∨ accessors.init) ∧ ¬ (accessors.set ∧ accessors.init)

variable {ts : Templates} {kind : Declaration.Kind} {t : Text}

theorem Templates.property?_eq (ts : Templates) (accessors : Accessors) :
    ts.property? accessors = accessors.slot?.map ts.template := by
  obtain ⟨get, set, init⟩ := accessors
  cases get <;> cases set <;> cases init <;> rfl

theorem Comment.template?_eq (ts : Templates) (kind : Declaration.Kind) :
    template? ts kind = kind.slot?.map ts.template := by
  cases kind with
  | property type accessors => exact ts.property?_eq accessors
  | _ => rfl

theorem Comment.template?_isSome_iff : (template? ts kind).isSome = true ↔ kind.Templated := by
  cases kind with
  | property type accessors =>
    obtain ⟨get, set, init⟩ := accessors
    cases get <;> cases set <;> cases init <;>
      simp [template?, property?, Declaration.Kind.Templated]
  | _ => simp [template?, Declaration.Kind.Templated]

theorem Comment.exists_slot (h : template? ts kind = some t) :
    ∃ slot, kind.slot? = some slot ∧ ts.template slot = t := by
  rw [template?_eq] at h
  exact Option.map_eq_some_iff.mp h

/-- A declaration has no use for the templates of its parts. -/
theorem Declaration.Kind.slot?_ne_part (kind : Declaration.Kind) :
    kind.slot? ≠ some .parameter ∧ kind.slot? ≠ some .returns := by
  cases kind with
  | property type accessors =>
    obtain ⟨get, set, init⟩ := accessors
    cases get <;> cases set <;> cases init <;> exact ⟨nofun, nofun⟩
  | _ => exact ⟨nofun, nofun⟩

end TripleSlash
