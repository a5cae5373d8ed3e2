import TripleSlash.Declaration.Recognition
import TripleSlash.Proofs.Parens
import TripleSlash.Proofs.Text.Stops

/-! What a recognized declaration takes from its line. -/
namespace TripleSlash

namespace Shape

open Pattern

/-- A constructor in front of its parameters. -/
def constructorHead : List LinePattern := [indent, access, space, part .name name, gap]

/-- A method in front of its parameters. -/
def methodHead : List LinePattern :=
  [indent, access, space,
   part .modifiers (modifiers "static"
     ["async", "virtual", "override", "abstract", "sealed", "new", "extern", "unsafe", "partial"]),
   type, space, part .name name, gap,
   opt (angledFlat fun c => c ∉ ['<', '>', '(', ')']), gap]

theorem constructorLine_eq : constructorLine = all (constructorHead ++ [text "("]) := rfl

theorem methodLine_eq : methodLine = all (methodHead ++ [text "("]) := rfl

end Shape

/-- A type that is written in a line. -/
structure TypeRef.Within (line : Text) (t : TypeRef) : Prop where
  written : t.written <:+: line
  base : t.base <:+: line
  generic : ∀ g, t.generic = some g → g <:+: line

namespace Declaration

open Pattern Shape

variable {line : Text} {d : Declaration} {m : Capture} {kind : Kind}

/-- What a kind of declaration captures is written in a line. -/
def Kind.Within (line : Text) : Kind → Prop
  | .type _ bases => bases <:+: line
  | .constructor ps => ps.raw <:+: line
  | .method _ _ returns ps => returns.Within line ∧ ps.raw <:+: line
  | .property t _ => t.Within line

/-- What a declaration captures is written in a line. -/
structure Within (line : Text) (d : Declaration) : Prop where
  indent : d.indent = line.takeWhile isIndent
  name : d.name <:+: line
  kind : d.kind.Within line

theorem ofCapture?_eq_some (h : ofCapture? m kind = some d) :
    d.indent = m.text .indent ∧ d.name = m.text .name ∧ d.kind = kind := by
  simp only [ofCapture?, bind, Option.bind_eq_some_iff, pure, Option.some.injEq] at h
  obtain ⟨a, -, rfl⟩ := h
  exact ⟨rfl, rfl, rfl⟩

/-- A recognized declaration is made of a reading of one of the four shapes. -/
inductive Shaped (line : Text) (d : Declaration) : Prop where
  | type (m : Capture) (hm : m ∈ typeLine.readings line) (hd : typeOfCapture? m = some d)
  | constructor (m : Capture) (hm : m ∈ constructorLine.readings line)
      (hd : constructorOfCapture? m = some d)
  | method (m : Capture) (hm : m ∈ methodLine.readings line) (hd : methodOfCapture? m = some d)
  | property (m : Capture) (hm : m ∈ propertyLine.readings line)
      (hd : propertyOfCapture? m = some d)

/-- Which shape decides about a line: the first one that can be read. -/
inductive Decided (line : Text) (d : Declaration) : Prop where
  | type (m : Capture) (hm : typeLine.read? line = some m) (hd : typeOfCapture? m = some d)
  | constructor (m : Capture) (htype : typeLine.read? line = none)
      (hm : constructorLine.read? line = some m) (hd : constructorOfCapture? m = some d)
  | method (m : Capture) (htype : typeLine.read? line = none)
      (hconstructor : constructorLine.read? line = none) (hm : methodLine.read? line = some m)
      (hd : methodOfCapture? m = some d)
  | property (m : Capture) (htype : typeLine.read? line = none)
      (hconstructor : constructorLine.read? line = none) (hmethod : methodLine.read? line = none)
      (hm : propertyLine.read? line = some m) (hd : propertyOfCapture? m = some d)

theorem recognize?_eq_some : recognize? line = some d ↔ Decided line d := by
  constructor
  · intro h
    unfold recognize? at h
    split at h
    next m hm => exact .type m hm h
    next htype =>
      split at h
      next m hm => exact .constructor m htype hm h
      next hconstructor =>
        split at h
        next m hm => exact .method m htype hconstructor hm h
        next hmethod =>
          split at h
          next m hm => exact .property m htype hconstructor hmethod hm h
          next => simp at h
  · intro h
    unfold recognize?
    cases h with
    | type m hm hd => simpa only [hm] using hd
    | constructor m htype hm hd => simpa only [htype, hm] using hd
    | method m htype hconstructor hm hd => simpa only [htype, hconstructor, hm] using hd
    | property m htype hconstructor hmethod hm hd =>
      simpa only [htype, hconstructor, hmethod, hm] using hd

theorem recognize?_shaped (h : recognize? line = some d) : Shaped line d := by
  cases recognize?_eq_some.mp h with
  | type m hm hd => exact .type m (mem_readings_of_read? hm) hd
  | constructor m _ hm hd => exact .constructor m (mem_readings_of_read? hm) hd
  | method m _ _ hm hd => exact .method m (mem_readings_of_read? hm) hd
  | property m _ _ _ hm hd => exact .property m (mem_readings_of_read? hm) hd

theorem typeOfCapture?_eq_some (h : typeOfCapture? m = some d) : ∃ keyword,
    d.indent = m.text .indent ∧ d.name = m.text .name ∧ d.kind = .type keyword (m.text .bases) := by
  simp only [typeOfCapture?, bind, Option.bind_eq_some_iff] at h
  obtain ⟨keyword, -, hd⟩ := h
  exact ⟨keyword, ofCapture?_eq_some hd⟩

theorem capturedType_within {p : LinePattern} (hm : m ∈ p.readings line) :
    (capturedType m).Within line where
  written := text_isInfix hm .type
  base := text_isInfix hm .base
  generic := by
    intro g hg
    have := text_isInfix hm .generic
    simpa [Reading.text, show m.parts.lookup .generic = some g from hg] using this

theorem parametersAt_within {p : LinePattern} (hm : m ∈ p.readings line) :
    (parametersAt m.rest).raw <:+: line := by
  obtain ⟨x, hx, -⟩ := takes_of_mem hm
  have hrest : m.rest <:+ line := ⟨x, hx.symm⟩
  exact (Parens.inside_prefix _ _).isInfix.trans hrest.isInfix

theorem recognize?_within (h : recognize? line = some d) : d.Within line := by
  cases recognize?_shaped h with
  | type m hm hd =>
    obtain ⟨keyword, hi, hn, hk⟩ := typeOfCapture?_eq_some hd
    exact ⟨hi.trans (text_first_run hm), hn ▸ text_isInfix hm .name, hk ▸ text_isInfix hm .bases⟩
  | constructor m hm hd =>
    obtain ⟨hi, hn, hk⟩ := ofCapture?_eq_some hd
    exact ⟨hi.trans (text_first_run hm), hn ▸ text_isInfix hm .name, hk ▸ parametersAt_within hm⟩
  | method m hm hd =>
    obtain ⟨hi, hn, hk⟩ := ofCapture?_eq_some hd
    exact ⟨hi.trans (text_first_run hm), hn ▸ text_isInfix hm .name,
      hk ▸ ⟨capturedType_within hm, parametersAt_within hm⟩⟩
  | property m hm hd =>
    obtain ⟨hi, hn, hk⟩ := ofCapture?_eq_some hd
    exact ⟨hi.trans (text_first_run hm), hn ▸ text_isInfix hm .name, hk ▸ capturedType_within hm⟩

/-- In front of the parenthesis that opens its parameters a head has no other one. -/
theorem head_parens {ps : List LinePattern} (hm : m ∈ (all (ps ++ [text "("])).readings line)
    (ho : (all ps).reads '(' = false) (hc : (all ps).reads ')' = false) :
    ∃ x, line = x ++ '(' :: m.rest ∧ '(' ∉ x ∧ ')' ∉ x := by
  obtain ⟨x, hx, hreads⟩ := mem_readings_stop hm
  exact ⟨x, hx, hreads '(' ho, hreads ')' hc⟩

theorem parametersAt_open {rest : Text} (h : (parametersAt rest).complete = false) :
    (parametersAt rest).raw = rest ∧ Parens.closes Parens.opened rest = false := by
  refine ⟨?_, h⟩
  simp only [parametersAt, Parens.closes, Parens.inside] at h ⊢
  split at h <;> simp_all

/-- The parameters of a declaration stand behind its first parenthesis. -/
theorem parameters_at {ps : ParameterText} (h : recognize? line = some d)
    (hps : d.parameters? = some ps) :
    ∃ x rest, line = x ++ '(' :: rest ∧ '(' ∉ x ∧ ')' ∉ x ∧ ps = parametersAt rest := by
  cases recognize?_shaped h with
  | type m hm hd =>
    obtain ⟨keyword, -, -, hkind⟩ := typeOfCapture?_eq_some hd
    simp [parameters?, hkind] at hps
  | constructor m hm hd =>
    rw [constructorLine_eq] at hm
    obtain ⟨x, hx, hxo, hxc⟩ := head_parens hm (by decide) (by decide)
    refine ⟨x, m.rest, hx, hxo, hxc, ?_⟩
    simpa [parameters?, (ofCapture?_eq_some hd).2.2, eq_comm] using hps
  | method m hm hd =>
    rw [methodLine_eq] at hm
    obtain ⟨x, hx, hxo, hxc⟩ := head_parens hm (by decide) (by decide)
    refine ⟨x, m.rest, hx, hxo, hxc, ?_⟩
    simpa [parameters?, (ofCapture?_eq_some hd).2.2, eq_comm] using hps
  | property m hm hd => simp [parameters?, (ofCapture?_eq_some hd).2.2] at hps

theorem parameters?_of_open (ho : d.isOpen = true) :
    d.parameters? = some ⟨d.rawParameters, false⟩ := by
  obtain ⟨⟨raw, complete⟩, hps, hopen⟩ := (Option.any_eq_true _ _).mp ho
  have hcomplete : complete = false := by simpa using hopen
  rw [rawParameters, hps, hcomplete]
  rfl

/-- The parameters of an open declaration reach from its first parenthesis to the end of the
line. -/
theorem open_parameters (h : recognize? line = some d) (ho : d.isOpen = true) :
    ∃ x, line = x ++ '(' :: d.rawParameters ∧ '(' ∉ x ∧ ')' ∉ x ∧
      Parens.closes Parens.opened d.rawParameters = false := by
  obtain ⟨x, rest, hline, hxo, hxc, hps⟩ := parameters_at h (parameters?_of_open ho)
  obtain ⟨hraw, hcloses⟩ := parametersAt_open (congrArg (·.complete) hps.symm)
  have hrest : d.rawParameters = rest := (congrArg (·.raw) hps).trans hraw
  rw [hrest]
  exact ⟨x, hline, hxo, hxc, hcloses⟩

end Declaration
end TripleSlash
