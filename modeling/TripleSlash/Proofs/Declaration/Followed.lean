import TripleSlash.Proofs.Declaration.Modifiers
import TripleSlash.Proofs.Declaration.Recognized

/-! What stands behind a declaration on its line. A whole declaration does not depend on it, and an
open one takes it into its parameters, up to the parenthesis that closes them. -/
namespace TripleSlash

namespace Shape

open Pattern Canonical

variable {line x y : Text} {m : Reading Part}

theorem Closed.append (hx : Closed x) (hy : Closed y) : Closed (x ++ y) := by
  intro u v h
  rcases List.append_eq_append_iff.mp h with ⟨a, rfl, ha⟩ | ⟨a, rfl, ha⟩
  · exact hy a v ha
  · cases a with
    | nil => exact hy [] v ha.symm
    | cons c a =>
      obtain ⟨rfl, rfl⟩ := List.cons.inj ha
      exact List.mem_append_left y (hx u a rfl)

/-- The brackets of a type are closed in it. -/
theorem closed_of_type (h : m ∈ type.readings (x ++ m.rest)) : Closed x := by
  obtain ⟨n, y, s, ht, -, hdots, m', hm', hrest, -⟩ := mem_type h
  obtain ⟨m₁, h₁, m₂, h₂, rfl⟩ := mem_seq hm'
  have hrest : m₂.rest = m.rest := hrest
  obtain ⟨z, hz, hreads, -⟩ := takes_of_mem h₂
  have hmarks : '<' ∉ z := fun hmem => absurd (hreads _ hmem) (by decide)
  have hname : '<' ∉ n.text := n.not_mem (by decide)
  have hdotted : '<' ∉ y := by
    obtain ⟨y', hy', hreads, -⟩ := takes_of_mem hdots
    obtain rfl : y = y' := List.append_cancel_right hy'
    exact fun hmem => absurd (hreads _ hmem) (by decide)
  rcases mem_opt h₁ with h₁ | rfl
  · obtain ⟨m₃, h₃, _, -, rfl⟩ := mem_part h₁
    obtain ⟨v, hv, -⟩ := mem_angled h₃
    have hbehind : m₃.rest = z ++ m.rest := hrest ▸ hz
    have hx : x = n.text ++ y ++ '<' :: v ++ '>' :: z := by
      refine List.append_cancel_right (ht.trans ?_)
      rw [hv, hbehind]
      simp
    exact hx ▸ closed_of_close _ hmarks
  · have hbehind : s = z ++ m.rest := hrest ▸ hz
    have hx : x = n.text ++ y ++ z := by
      refine List.append_cancel_right (ht.trans ?_)
      rw [hbehind]
      simp
    exact hx ▸ closed_of_not_mem (by simp [hname, hdotted, hmarks])

/-- A property in front of its type. -/
def propertyLead : List LinePattern :=
  [indent, access, space, modifiers "static" ["virtual", "override", "abstract", "sealed", "new",
    "required", "readonly", "unsafe", "extern"]]

/-- A property behind its type, in front of its braces. -/
def propertyName : List LinePattern := [space, part .name name, gap]

/-- The accessors of a property, without the braces around them. -/
def propertyAccessors : List LinePattern :=
  [gap, opt (part .getter (word "get;")), gap, accessor .setter "set;", gap,
    accessor .initer "init;", gap]

/-- A property is read whatever stands behind its braces. -/
theorem propertyLine_read?_append (h : propertyLine.read? line = some m) (y : Text) :
    propertyLine.read? (line ++ y) = some (m.onto y) := by
  have hline : propertyLine = all ((propertyLead ++ type :: (propertyName ++
      text "\x7b" :: propertyAccessors)) ++ [text ['\x7d']]) := rfl
  rw [hline] at h ⊢
  exact read?_append (by decide) (by decide) h y

/-- In front of its braces a property has neither a parenthesis nor a bracket that is not closed. -/
theorem property_front (h : m ∈ propertyLine.readings line) : ∃ before after,
    line = before ++ '\x7b' :: after ∧ '(' ∉ before ∧ '\x7b' ∉ before ∧ Closed before := by
  have hlead : propertyLine = all (propertyLead ++ type :: ((propertyName ++ [text ['\x7b']]) ++
      (propertyAccessors ++ [text "\x7d"]))) := rfl
  obtain ⟨m₁, h₁, m₂, h₂, -⟩ := mem_readings_all_append (hlead ▸ h)
  obtain ⟨m₃, h₃, m₄, h₄, -⟩ := mem_seq h₂
  obtain ⟨m₅, h₅, -⟩ := mem_readings_all_append h₄
  obtain ⟨x, hx, hfront, -⟩ := takes_of_mem h₁
  obtain ⟨y, hy, htype, -⟩ := takes_of_mem h₃
  obtain ⟨z, hz, hname⟩ := mem_readings_stop h₅
  have hnot : ∀ d, (all propertyLead).reads d = false → (type.reads d) = false →
      (all propertyName).reads d = false → d ∉ x ++ (y ++ z) := by
    intro d hlead htypes hnames hmem
    rcases List.mem_append.mp hmem with hmem | hmem
    · simp [hfront d hmem] at hlead
    · rcases List.mem_append.mp hmem with hmem | hmem
      · simp [htype d hmem] at htypes
      · exact hname d hnames hmem
  have hclosed : Closed (x ++ (y ++ z)) := by
    refine Closed.prepend (fun hmem => absurd (hfront _ hmem) (by decide)) ?_
    exact (closed_of_type (hy ▸ h₃)).append (closed_of_not_mem (hname '<' (by decide)))
  exact ⟨x ++ (y ++ z), m₅.rest, by rw [hx, hy, hz]; simp, hnot '(' (by decide) (by decide)
    (by decide), hnot '\x7b' (by decide) (by decide) (by decide), hclosed⟩

end Shape

namespace Declaration

open Pattern Shape

variable {line t x y r : Text} {d : Declaration} {ps : ParameterText} {type : TypeRef}
  {accessors : Accessors}

/-- What stands behind the parenthesis that closes the parameters is no part of them. -/
theorem parametersAt_append (h : (parametersAt r).complete = true) (y : Text) :
    parametersAt (r ++ y) = parametersAt r := by
  simp only [parametersAt, Parens.closes, Parens.inside] at h ⊢
  split at h
  next => simp at h
  next before rest hscan => simp [Parens.scan_append_of_closed hscan]

theorem recognize?_complete (h : recognize? line = some d) (hps : d.parameters? = some ps)
    (hcomplete : ps.complete = true) (y : Text) : recognize? (line ++ y) = some d := by
  obtain ⟨x, r, rfl, hx, -, rfl⟩ := parameters_at h hps
  rw [List.append_assoc, List.cons_append,
    recognize?_behind hx h (Option.isSome_of_eq_some hps), parametersAt_append hcomplete,
    withParameters_self hps]

theorem recognize?_propertyLine (h : recognize? line = some d)
    (hkind : d.kind = .property type accessors) (y : Text) : recognize? (line ++ y) = some d := by
  cases recognize?_eq_some.mp h with
  | type m _ hd =>
    obtain ⟨keyword, -, -, htype⟩ := typeOfCapture?_eq_some hd
    simp [htype] at hkind
  | constructor m _ _ hd => simp [(ofCapture?_eq_some hd).2.2] at hkind
  | method m _ _ _ hd => simp [(ofCapture?_eq_some hd).2.2] at hkind
  | property m htype hconstructor hmethod hm hd =>
    have hproperty := propertyLine_read?_append hm y
    obtain ⟨x, r, rfl, hparen, hbrace, hclosed⟩ := property_front (mem_readings_of_read? hm)
    have hline : x ++ '\x7b' :: r ++ y = x ++ '\x7b' :: (r ++ y) := by simp
    have hfront : ∀ z, constructorLine.read? (x ++ '\x7b' :: z) = none ↔
        constructorLine.readings x = [] := by
      intro z
      rw [read?, readings_append (by decide) (by decide), List.head?_eq_none_iff,
        List.map_eq_nil_iff]
    -- Of the shapes that are tried first only a method reads braces, in its type parameters, and no
    -- bracket in front of the brace is left open for them.
    refine recognize?_eq_some.mpr (.property (m.onto y) ?_ ?_ ?_ hproperty hd)
    · exact hline ▸ typeLine_read?_eq_none (by decide) r (r ++ y) htype
    · exact hline ▸ (hfront (r ++ y)).mpr ((hfront r).mp hconstructor)
    · rw [read?, methodLine_eq_nil hline hparen hbrace hclosed]
      rfl

/-- A whole constructor, method or property is the same declaration whatever stands behind it. Of an
open one the parameters go on there, up to the first parenthesis that closes them. -/
theorem recognize?_followed (h : recognize? line = some d) (y : Text) :
    ((∀ keyword bases, d.kind ≠ .type keyword bases) → d.isOpen = false →
        recognize? (line ++ y) = some d) ∧
      (d.isOpen = true → ∃ ps : ParameterText, ps.Listed (d.rawParameters ++ y) ∧
        recognize? (line ++ y) = some (d.withParameters ps)) := by
  refine ⟨fun hkind hwhole => ?_, fun ho => ⟨_, listed_iff.mpr rfl, recognize?_append h ho⟩⟩
  cases hk : d.kind with
  | type keyword bases => exact absurd hk (hkind keyword bases)
  | constructor ps =>
    have hps : d.parameters? = some ps := by simp [parameters?, hk]
    exact recognize?_complete h hps (by simpa [isOpen, hps] using hwhole) y
  | method isStatic isAsync returns ps =>
    have hps : d.parameters? = some ps := by simp [parameters?, hk]
    exact recognize?_complete h hps (by simpa [isOpen, hps] using hwhole) y
  | property type accessors => exact recognize?_propertyLine h hk y

/-- A call behind the braces of a property, and the end of a list with a list of its own in it. -/
theorem recognize?_followed_call :
    recognize? ("public int A { get; }".toList ++ " = F(1, 2);".toList) =
        some ⟨[], .pub, "A".toList, .property ⟨"int".toList, "int".toList, none⟩
          ⟨true, false, false⟩⟩ ∧
      recognize? ("public Job(int a,".toList ++ " (int, int) b) : base(a)".toList) =
        some ⟨[], .pub, "Job".toList, .constructor ⟨"int a, (int, int) b".toList, true⟩⟩ := by
  have hproperty : recognize? "public int A { get; }".toList = some ⟨[], .pub, "A".toList,
      .property ⟨"int".toList, "int".toList, none⟩ ⟨true, false, false⟩⟩ := by decide +kernel
  have hopen : recognize? "public Job(int a,".toList =
      some ⟨[], .pub, "Job".toList, .constructor ⟨"int a,".toList, false⟩⟩ := by decide +kernel
  refine ⟨(recognize?_followed hproperty _).1 (by simp) rfl, ?_⟩
  obtain ⟨ps, hps, hjob⟩ := (recognize?_followed hopen " (int, int) b) : base(a)".toList).2 rfl
  obtain rfl := listed_iff.mp hps
  exact hjob.trans (by decide +kernel)

end Declaration
end TripleSlash
