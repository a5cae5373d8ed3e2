import TripleSlash.Proofs.Comment.Lines
import TripleSlash.Proofs.Declaration.Captured
import TripleSlash.Proofs.Text.Stops

/-! A line whose declaration is open stays the same declaration with more text behind it; only its
parameters grow. -/
namespace TripleSlash

namespace Shape

open Pattern

/-- A type declaration as far as it must be there. -/
def typeHead : List LinePattern :=
  [indent, access, space,
   modifiers "static" ["abstract", "sealed", "partial", "readonly", "unsafe", "ref", "new"],
   part .keyword (anyWord "class" ["interface", "struct", "enum"]), space, part .name name]

theorem typeLine_eq : typeLine = all (typeHead ++
    [opt (seq gap (angledFlat (· != '>'))), opt (all [gap, text ":", gap, bases])]) := rfl

/-- What a type declaration may have behind its name does not decide whether there is one. -/
theorem typeLine_read? (t : Text) :
    typeLine.read? t = none ↔ (all typeHead).readings t = [] := by
  rw [typeLine_eq, read?, List.head?_eq_none_iff, readings_all_append, List.flatMap_eq_nil_iff]
  constructor
  · intro h
    apply List.eq_nil_iff_forall_not_mem.mpr
    intro m hm
    have hrest := h m hm
    simp [all, readings, opt] at hrest
  · intro h m hm
    simp [h] at hm

theorem access_begins {t : Text} {m : Reading Part} (h : m ∈ access.readings t) :
    ∃ c rest, t = c :: rest ∧ (c = 'p' ∨ c = 'i') := by
  cases t with
  | nil => simp [access, oneOf, all, word, readings, readings_text] at h
  | cons c rest =>
    refine ⟨c, rest, rfl, ?_⟩
    by_contra hc
    rw [not_or] at hc
    have hp := Ne.symm hc.1
    have hi := Ne.symm hc.2
    simp [access, oneOf, all, word, readings, readings_text, hp, hi] at h

/-- Every shape begins with an indent and an access modifier. -/
theorem begins_of_mem {line : Text} {p : LinePattern} {m : Reading Part}
    (h : m ∈ (seq indent (seq access p)).readings line) :
    ∃ c rest, line.dropWhile isIndent = c :: rest ∧ (c = 'p' ∨ c = 'i') := by
  simp only [readings, indent, List.map_cons, List.map_nil, List.flatMap_cons, List.flatMap_nil,
    List.append_nil, List.mem_map, List.mem_flatMap] at h
  obtain ⟨m₁, ⟨m₂, h₂, -⟩, -⟩ := h
  exact access_begins h₂

end Shape

namespace Declaration

open Pattern Shape

variable {line x r y : Text} {d : Declaration}

/-- The declaration with other parameters, if it has any. -/
def withParameters (d : Declaration) (ps : ParameterText) : Declaration :=
  { d with kind :=
      match d.kind with
      | .constructor _ => .constructor ps
      | .method isStatic isAsync returns _ => .method isStatic isAsync returns ps
      | kind => kind }

theorem withParameters_self {ps : ParameterText} (h : d.parameters? = some ps) :
    d.withParameters ps = d := by
  obtain ⟨indent, access, name, kind⟩ := d
  cases kind <;> simp_all [withParameters, parameters?]

/-- A declaration is neither a comment nor an attribute. -/
theorem not_comment_of_recognize? (h : recognize? line = some d) :
    isComment line = false ∧ isAttribute line = false := by
  have hbegins : ∃ c rest, line.dropWhile isIndent = c :: rest ∧ (c = 'p' ∨ c = 'i') := by
    cases recognize?_shaped h with
    | type m hm hd => exact begins_of_mem hm
    | constructor m hm hd => exact begins_of_mem hm
    | method m hm hd => exact begins_of_mem hm
    | property m hm hd => exact begins_of_mem hm
  obtain ⟨c, rest, hline, hc⟩ := hbegins
  have hslash : '/' ≠ c := by rcases hc with rfl | rfl <;> decide
  have hbracket : '[' ≠ c := by rcases hc with rfl | rfl <;> decide
  constructor
  · simp [← Bool.not_eq_true, isComment_iff, hline, hslash]
  · simp [isAttribute, attributeLine, begins, read?, readings, readings_text, hline, hbracket]

/-- How a head is read in front of the parenthesis that opens its parameters. -/
def readHead? (ps : List LinePattern) (x : Text) : Option Capture :=
  ((all ps).readings x).find? (·.rest.isEmpty)

theorem constructorLine_read? (hx : '(' ∉ x) (r : Text) : constructorLine.read? (x ++ '(' :: r) =
    (readHead? constructorHead x).map fun m => ⟨m.parts, r⟩ := by
  rw [constructorLine_eq]
  exact read?_stop (by decide) (by decide) hx

theorem methodLine_read? (hx : '(' ∉ x) (r : Text) : methodLine.read? (x ++ '(' :: r) =
    (readHead? methodHead x).map fun m => ⟨m.parts, r⟩ := by
  rw [methodLine_eq]
  exact read?_stop (by decide) (by decide) hx

theorem typeLine_read?_eq_none {c : Char} (hc : (all typeHead).reads c = false) (r r' : Text)
    (h : typeLine.read? (x ++ c :: r) = none) : typeLine.read? (x ++ c :: r') = none := by
  rw [typeLine_read?, readings_append (by decide) hc, List.map_eq_nil_iff] at h ⊢
  exact h

theorem ofCapture?_withParameters {parts : List (Part × Text)} {kind : Kind}
    (h : ofCapture? ⟨parts, r⟩ kind = some d) (ps : ParameterText) (r' : Text) :
    ofCapture? ⟨parts, r'⟩ (d.withParameters ps).kind = some (d.withParameters ps) := by
  simp only [ofCapture?, bind, Option.bind_eq_some_iff, pure, Option.some.injEq] at h ⊢
  obtain ⟨a, ha, rfl⟩ := h
  exact ⟨a, ha, rfl⟩

/-- What stands behind the parenthesis that opens its parameters changes nothing else of a
declaration. -/
theorem recognize?_behind (hx : '(' ∉ x) (h : recognize? (x ++ '(' :: r) = some d)
    (hps : d.parameters?.isSome) (r' : Text) :
    recognize? (x ++ '(' :: r') = some (d.withParameters (parametersAt r')) := by
  have hnone : typeLine.read? (x ++ '(' :: r) = none → typeLine.read? (x ++ '(' :: r') = none :=
    typeLine_read?_eq_none (by decide) r r'
  cases recognize?_eq_some.mp h with
  | type m hm hd =>
    obtain ⟨keyword, -, -, hkind⟩ := typeOfCapture?_eq_some hd
    simp [parameters?, hkind] at hps
  | constructor m htype hm hd =>
    rw [constructorLine_read? hx, Option.map_eq_some_iff] at hm
    obtain ⟨m', hm, rfl⟩ := hm
    refine recognize?_eq_some.mpr (.constructor ⟨m'.parts, r'⟩ (hnone htype) ?_ ?_)
    · rw [constructorLine_read? hx, hm, Option.map_some]
    · have hkind := (ofCapture?_eq_some hd).2.2
      rw [← ofCapture?_withParameters hd (parametersAt r') r']
      simp [constructorOfCapture?, withParameters, hkind]
  | method m htype hconstructor hm hd =>
    rw [methodLine_read? hx, Option.map_eq_some_iff] at hm
    obtain ⟨m', hm, rfl⟩ := hm
    rw [constructorLine_read? hx, Option.map_eq_none_iff] at hconstructor
    refine recognize?_eq_some.mpr (.method ⟨m'.parts, r'⟩ (hnone htype) ?_ ?_ ?_)
    · rw [constructorLine_read? hx, hconstructor, Option.map_none]
    · rw [methodLine_read? hx, hm, Option.map_some]
    · have hkind := (ofCapture?_eq_some hd).2.2
      rw [← ofCapture?_withParameters hd (parametersAt r') r']
      simp [methodOfCapture?, withParameters, hkind]
      rfl
  | property m _ _ _ hm hd => simp [parameters?, (ofCapture?_eq_some hd).2.2] at hps

/-- Text behind an open declaration belongs to its parameters. -/
theorem recognize?_append (h : recognize? line = some d) (ho : d.isOpen = true) :
    recognize? (line ++ y) =
      some (d.withParameters (parametersAt (d.rawParameters ++ y))) := by
  obtain ⟨x, hline, hx, -, -⟩ := open_parameters h ho
  rw [hline] at h ⊢
  rw [List.append_assoc, List.cons_append]
  exact recognize?_behind hx h (Option.isSome_of_eq_some (parameters?_of_open ho)) _

end Declaration
end TripleSlash
