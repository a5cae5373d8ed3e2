import TripleSlash.Proofs.Declaration.Extended
import TripleSlash.Proofs.Document.Breaks
import TripleSlash.Proofs.Template.Known

/-! A comment that waits for parameters, and the comment of the same declaration with all of its
parameters on one line. Where no braces but those of holes are about, the marker is found where the
parameters belong, so the two comments are the same. -/
namespace TripleSlash

open Comment Template Templates

variable {ts : Templates} {lb nl t line whole later : Text} {d : Declaration} {r : TypeRef}

/-- A type without opening braces. -/
structure TypeRef.Unbraced (r : TypeRef) : Prop where
  written : '{' ∉ r.written
  base : '{' ∉ r.base
  generic : ∀ g, r.generic = some g → '{' ∉ g

theorem TypeRef.not_brace_inner (h : r.Unbraced) : '{' ∉ r.inner := by
  unfold inner
  split
  next args hg =>
    have hargs := h.generic _ hg
    simp only [List.mem_cons, not_or] at hargs
    split
    · exact fun hm => hargs.2 (List.dropLast_subset args hm)
    · simp
  next => simp

theorem TypeRef.not_brace_full (h : r.Unbraced) : '{' ∉ r.full := by
  simp only [full, List.mem_append, not_or]
  refine ⟨h.base, ?_⟩
  cases hg : r.generic with
  | none => simp
  | some g => exact h.generic g hg

namespace Declaration

/-- A declaration whose parameters alone may have opening braces. -/
structure Unbraced (d : Declaration) : Prop where
  indent : '{' ∉ d.indent
  name : '{' ∉ d.name
  returns : ∀ isStatic isAsync r ps, d.kind = .method isStatic isAsync r ps → r.Unbraced

theorem capturedType_unbraced {p : Shape.LinePattern} {m : Capture} (hm : m ∈ p.readings line)
    (hp : p.captures '{' = false) : (capturedType m).Unbraced where
  written := Pattern.not_mem_text hm hp .type
  base := Pattern.not_mem_text hm hp .base
  generic := by
    intro g hg
    have hgeneric := Pattern.not_mem_text hm hp .generic
    simpa [Pattern.Reading.text, show m.parts.lookup .generic = some g from hg] using hgeneric

/-- No shape captures a brace. -/
theorem unbraced_of_recognize? (h : recognize? line = some d) : d.Unbraced := by
  have hindent : '{' ∉ d.indent := fun hm =>
    absurd (indent_within (recognize?_within h) _ hm) (by decide)
  cases recognize?_shaped h with
  | type m hm hd =>
    obtain ⟨keyword, -, hn, hk⟩ := typeOfCapture?_eq_some hd
    exact ⟨hindent, hn ▸ Pattern.not_mem_text hm (by decide) .name, by simp [hk]⟩
  | constructor m hm hd =>
    obtain ⟨-, hn, hk⟩ := ofCapture?_eq_some hd
    exact ⟨hindent, hn ▸ Pattern.not_mem_text hm (by decide) .name, by simp [hk]⟩
  | method m hm hd =>
    obtain ⟨-, hn, hk⟩ := ofCapture?_eq_some hd
    refine ⟨hindent, hn ▸ Pattern.not_mem_text hm (by decide) .name, ?_⟩
    rintro isStatic isAsync r ps hr
    obtain ⟨-, -, rfl, -⟩ := Kind.method.inj (hk.symm.trans hr)
    exact capturedType_unbraced hm (by decide)
  | property m hm hd =>
    obtain ⟨-, hn, hk⟩ := ofCapture?_eq_some hd
    exact ⟨hindent, hn ▸ Pattern.not_mem_text hm (by decide) .name, by simp [hk]⟩

/-- What an open declaration is. -/
theorem kind_of_open (ho : d.isOpen = true) :
    d.kind = .constructor ⟨d.rawParameters, false⟩ ∨ ∃ isStatic isAsync r,
      d.kind = .method isStatic isAsync r ⟨d.rawParameters, false⟩ := by
  obtain ⟨indent, access, name, kind⟩ := d
  cases kind with
  | type | property => simp [isOpen, parameters?] at ho
  | constructor ps =>
    obtain ⟨raw, complete⟩ := ps
    obtain rfl : complete = false := by simpa [isOpen, parameters?] using ho
    exact .inl rfl
  | method isStatic isAsync r ps =>
    obtain ⟨raw, complete⟩ := ps
    obtain rfl : complete = false := by simpa [isOpen, parameters?] using ho
    exact .inr ⟨isStatic, isAsync, r, rfl⟩

@[simp] theorem access_withParameters (ps : ParameterText) :
    (d.withParameters ps).access = d.access := rfl

theorem isOpen_withParameters (t : Text) : (d.withParameters ⟨t, true⟩).isOpen = false := by
  obtain ⟨indent, access, name, kind⟩ := d
  cases kind <;> rfl

end Declaration

namespace Comment

theorem not_brace_newline (hlb : '{' ∉ lb) (hd : d.Unbraced) : '{' ∉ newline lb d.indent := by
  simpa [newline] using ⟨hlb, hd.indent⟩

theorem headValues_unbraced (h : d.Unbraced) : (headValues d).Unbraced := by
  have haccess : '{' ∉ d.access.spelling := by cases d.access <;> decide
  simpa [headValues, Values.Unbraced] using ⟨h.name, haccess⟩

theorem typeValues_unbraced (h : r.Unbraced) : (typeValues r).Unbraced := by
  simp [typeValues, Values.Unbraced, h.written, h.base, TypeRef.not_brace_inner h,
    TypeRef.not_brace_full h]

theorem lineValues_unbraced (hnl : '{' ∉ nl) : (lineValues nl).Unbraced := by
  simpa [lineValues, Values.Unbraced] using hnl

theorem not_brace_parameterEntry {p : Parameter} (hts : ts.Known) (hnl : '{' ∉ nl)
    (htype : '{' ∉ p.type) (hname : '{' ∉ p.name) : '{' ∉ parameterEntry ts nl p := by
  have hvalues : (parameterValues p).Unbraced := by
    simpa [parameterValues, Values.Unbraced] using ⟨htype, hname⟩
  have hserve : (parameterValues p ++ lineValues nl).Serve Slot.parameter.keys := by
    change ∀ key ∈ _, '}' ∉ key ∧ key ∈ (["type".toList, "name".toList, "nl".toList] : List Text)
    decide
  have hfill := not_brace_fill (hts .parameter) hserve
    (unbraced_append hvalues (lineValues_unbraced hnl))
  simpa [parameterEntry] using ⟨hnl, hfill⟩

theorem not_brace_parameterEntries (hts : ts.Known) (hnl : '{' ∉ nl) (ht : '{' ∉ t) :
    '{' ∉ parameterEntries ts nl t := by
  intro hm
  obtain ⟨p, hp, hm⟩ := List.mem_flatMap.mp hm
  obtain ⟨htype, hname⟩ := Parameter.infix_of_mem_parseList hp
  exact not_brace_parameterEntry hts hnl (fun h => ht (htype.subset h))
    (fun h => ht (hname.subset h)) hm

theorem not_brace_returnsEntry (hts : ts.Known) (hnl : '{' ∉ nl) (hr : r.Unbraced) :
    '{' ∉ returnsEntry ts nl r := by
  have hserve : (typeValues r ++ lineValues nl).Serve Slot.returns.keys := by
    change ∀ key ∈ _, '}' ∉ key ∧ key ∈ (["type".toList, "baseType".toList, "genericType".toList,
      "fullType".toList, "nl".toList] : List Text)
    decide
  have hfill := not_brace_fill (hts .returns) hserve
    (unbraced_append (typeValues_unbraced hr) (lineValues_unbraced hnl))
  unfold returnsEntry
  split
  · simp
  · simpa using ⟨hnl, hfill⟩

/-- The comment of an open declaration has one place for its parameters at most. -/
theorem render?_withParameters (hts : ts.Known) (hsingle : ts.Single) (hlb : '{' ∉ lb)
    (hd : d.Unbraced) (ho : d.isOpen = true) :
    ∃ f, OnePlace f ∧ ∀ ps, render? ts lb (d.withParameters ps) =
      some (f (parameterBlock ts (newline lb d.indent) ps)) := by
  have hnl := not_brace_newline hlb hd
  have hhead := headValues_unbraced hd
  have hline := lineValues_unbraced hnl
  have hkeys : "parameters".toList ∉ (headValues d).map Prod.fst := by
    change "parameters".toList ∉ (["name".toList, "access".toList] : List Text)
    decide
  rcases Declaration.kind_of_open ho with hk | ⟨isStatic, isAsync, r, hk⟩
  · have hserve : (headValues d ++ lineValues (newline lb d.indent)).Serve
        (others "parameters" Slot.constructor.keys) := by
      change ∀ key ∈ _, '}' ∉ key ∧
        key ∈ (["name".toList, "access".toList, "nl".toList] : List Text)
      decide
    have hplace := fill_once (hts .constructor) hsingle.constructor (by decide) hkeys hserve
      (unbraced_append hhead hline)
    refine ⟨_, hplace.frame hd.indent hlb, fun ps => ?_⟩
    simp [render?, body?, template?, Declaration.withParameters, hk, kindValues, headValues,
      Templates.template]
  · have hserve : (headValues d ++ ("returns".toList, returnsEntry ts (newline lb d.indent) r) ::
        (typeValues r ++ lineValues (newline lb d.indent))).Serve
        (others "parameters" Slot.method.keys) := by
      change ∀ key ∈ _, '}' ∉ key ∧ key ∈ (["name".toList, "access".toList, "returns".toList,
        "type".toList, "baseType".toList, "genericType".toList, "fullType".toList,
        "nl".toList] : List Text)
      decide
    have hr := hd.returns _ _ _ _ hk
    have hvalues : Values.Unbraced (("returns".toList, returnsEntry ts (newline lb d.indent) r) ::
        (typeValues r ++ lineValues (newline lb d.indent))) :=
      List.forall_mem_cons.mpr
        ⟨not_brace_returnsEntry hts hnl hr, unbraced_append (typeValues_unbraced hr) hline⟩
    have hplace := fill_once (hts .method) hsingle.method (by decide) hkeys hserve
      (unbraced_append hhead hvalues)
    refine ⟨_, hplace.frame hd.indent hlb, fun ps => ?_⟩
    simp [render?, body?, template?, Declaration.withParameters, hk, kindValues, headValues,
      Templates.template]

/-- The marker is found where it was put. -/
theorem replaceFirst_of_onePlace {f : Text → Text} (hf : OnePlace f) (ht : '{' ∉ t) :
    Text.replaceFirst marker later (f (t ++ marker)) = f (t ++ later) := by
  rcases hf with ⟨u, hu, hf⟩ | ⟨u, v, hu, hf⟩
  · have hnone : Text.replaceFirst marker later (u ++ []) =
        u ++ Text.replaceFirst marker later [] := Text.replaceFirst_append hu
    rw [hf, hf]
    simpa [Text.replaceFirst, marker, hole] using hnone
  · have hfound : Text.replaceFirst marker later (u ++ (t ++ (marker ++ v))) =
        u ++ (t ++ Text.replaceFirst marker later (marker ++ v)) :=
      (Text.replaceFirst_append hu).trans (congrArg (u ++ ·) (Text.replaceFirst_append ht))
    rw [hf, hf, List.append_assoc t, hfound]
    simp [Text.replaceFirst, marker, hole]

/-- Entries of later lines in the place of the marker make the comment of the declaration with all
of its parameters. -/
theorem render?_spliced (hts : ts.Known) (hsingle : ts.Single) (hlb : '{' ∉ lb) (hd : d.Unbraced)
    (ho : d.isOpen = true)
    (hraw : '{' ∉ parameterEntries ts (newline lb d.indent) d.rawParameters)
    (hwhole : parameterEntries ts (newline lb d.indent) whole =
      parameterEntries ts (newline lb d.indent) d.rawParameters ++ later) :
    ∃ head, render? ts lb d = some head ∧ render? ts lb (d.withParameters ⟨whole, true⟩) =
      some (Text.replaceFirst marker later head) := by
  obtain ⟨f, hf, hrender⟩ := render?_withParameters hts hsingle hlb hd ho
  have hself := hrender ⟨d.rawParameters, false⟩
  rw [Declaration.withParameters_self (Declaration.parameters?_of_open ho)] at hself
  refine ⟨_, hself, ?_⟩
  rw [hrender]
  simp only [parameterBlock, if_true, List.append_nil, Bool.false_eq_true, if_false]
  rw [replaceFirst_of_onePlace hf hraw, hwhole]

end Comment
end TripleSlash
