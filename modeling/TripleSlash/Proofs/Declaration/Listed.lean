import TripleSlash.Declaration.Recognition
import TripleSlash.Proofs.Parens.Counted

/-! The parameters of a list, said of the text behind the parenthesis that opens it. -/
namespace TripleSlash

variable {t : Text} {ps : ParameterText}

/-- The parameters that a text gives behind the parenthesis that opens them: up to the first
parenthesis that closes more lists than the text has opened, or all of it if there is none. -/
inductive ParameterText.Listed (t : Text) : ParameterText → Prop
  | closed (before rest : Text) (cut : t = before ++ ')' :: rest)
      (first : Parens.OpenThroughout 1 before) (level : before.count ')' = before.count '(') :
      Listed t ⟨before, true⟩
  | unclosed (never : Parens.OpenThroughout 1 t) : Listed t ⟨t, false⟩

/-- A text gives its parameters in one way. -/
theorem Declaration.listed_iff : ps.Listed t ↔ ps = parametersAt t := by
  constructor
  · rintro (⟨before, rest, cut, first, level⟩ | ⟨never⟩)
    · have hscan : Parens.scan Parens.opened t = .closed before rest :=
        (Parens.scan_eq_closed_iff Nat.one_pos).mpr ⟨cut, first, by omega⟩
      simp [parametersAt, Parens.inside, Parens.closes, hscan]
    · have hcount := never t List.prefix_rfl
      have hscan : Parens.scan Parens.opened t = .unclosed (1 + t.count '(' - t.count ')') :=
        (Parens.scan_eq_unclosed_iff Nat.one_pos).mpr ⟨never, by omega⟩
      simp [parametersAt, Parens.inside, Parens.closes, hscan]
  · rintro rfl
    cases hscan : Parens.scan Parens.opened t with
    | closed before rest =>
      obtain ⟨cut, first, level⟩ := (Parens.scan_eq_closed_iff Nat.one_pos).mp hscan
      simpa [parametersAt, Parens.inside, Parens.closes, hscan] using
        ParameterText.Listed.closed before rest cut first (by omega)
    | unclosed n =>
      obtain ⟨never, -⟩ := (Parens.scan_eq_unclosed_iff Nat.one_pos).mp hscan
      simpa [parametersAt, Parens.inside, Parens.closes, hscan] using
        ParameterText.Listed.unclosed never

/-- What stands behind the parenthesis that opens a list of parameters, with the parameters that it
gives. Any text may stand there, since every text gives its parameters. -/
structure ListText where
  rest : Text
  list : ParameterText
  listed : list.Listed rest

theorem ListText.list_eq (l : ListText) : l.list = Declaration.parametersAt l.rest :=
  Declaration.listed_iff.mp l.listed

end TripleSlash
