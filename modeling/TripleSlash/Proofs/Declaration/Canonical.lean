import TripleSlash.Proofs.Declaration.Listed
import TripleSlash.Proofs.Text.Words

/-! Declarations as they are commonly written, with the declaration that each line stands for. The
parts of a line carry their own rules, so that every value is a line that can be written. -/
namespace TripleSlash.Canonical

/-- The words of access modifiers. -/
def accessWords : List Text := ["public", "internal", "protected", "private"]

def typeModifiers : List Text :=
  ["static", "abstract", "sealed", "partial", "readonly", "unsafe", "ref", "new"]

def methodModifiers : List Text :=
  ["static", "async", "virtual", "override", "abstract", "sealed", "new", "extern", "unsafe",
    "partial"]

def propertyModifiers : List Text :=
  ["static", "virtual", "override", "abstract", "sealed", "new", "required", "readonly", "unsafe",
    "extern"]

def accessorModifiers : List Text := ["private", "protected", "internal"]

/-- Every word that has a meaning of its own in a declaration. -/
def keywords : List Text :=
  accessWords ++ typeModifiers ++ methodModifiers ++ propertyModifiers ++
    TypeKeyword.all.map (·.spelling) ++ (["get", "set", "init"] : List Text)

/-- A word that is not a keyword. -/
structure Name extends Stretch1 isWord where
  notKeyword : text ∉ keywords

/-- Names with dots between them. -/
structure Dotted where
  first : Name
  more : List Name

def Dotted.text (d : Dotted) : Text := d.first.text ++ d.more.flatMap ('.' :: ·.text)

/-- One word of a list, with blanks behind it. -/
structure Keyword (allowed : List Text) extends SpacedWord where
  mem : word.text ∈ allowed

/-- The words of modifiers with their blanks. -/
def modifierText {allowed : List Text} (ms : List (Keyword allowed)) : Text :=
  SpacedWord.line (ms.map (·.toSpacedWord))

/-- The ways to write an access modifier: a word, or two words in either order. -/
def accessForms : Access → List (List Text)
  | .pub => [["public"]]
  | .internal => [["internal"]]
  | .prot => [["protected"]]
  | .protInternal => [["protected", "internal"], ["internal", "protected"]]
  | .priv => [["private"]]
  | .privProt => [["private", "protected"], ["protected", "private"]]

/-- An access modifier: one word or two, with blanks behind each. -/
structure AccessText where
  words : List SpacedWord
  modifier : Access
  form : SpacedWord.words words ∈ accessForms modifier

theorem AccessText.mem_forms (a : AccessText) :
    (SpacedWord.words a.words, a.modifier) ∈ Access.forms := by
  have hforms : ∀ modifier, ∀ ws ∈ accessForms modifier, (ws, modifier) ∈ Access.forms := by
    intro modifier
    cases modifier <;> decide
  exact hforms _ _ a.form

/-- Angle brackets around a text, or nothing. -/
def angles {accepts : Char → Bool} (x : Option (Stretch accepts)) : Text :=
  (x.map fun x => '<' :: (x.text ++ ['>'])).getD []

/-- Type parameters: blanks and angle brackets around a text, or nothing. -/
def parameterText {accepts : Char → Bool} (x : Option (Stretch isBlank × Stretch accepts)) : Text :=
  (x.map fun x => x.1.text ++ angles (some x.2)).getD []

theorem parameterText_none {accepts : Char → Bool} :
    parameterText (none : Option (Stretch isBlank × Stretch accepts)) = [] := rfl

theorem parameterText_some_append {accepts : Char → Bool}
    (x : Stretch isBlank × Stretch accepts) (t : Text) :
    parameterText (some x) ++ t = x.1.text ++ '<' :: (x.2.text ++ '>' :: t) := by
  simp [parameterText, angles]

/-- A character inside a rank. -/
def isRank (c : Char) : Bool := c == ',' || isBlank c

/-- A character inside the type parameters of a method. -/
def isTypeParameter (c : Char) : Bool := c ∉ ['<', '>', '(', ')']

def mark (present : Bool) : Text := if present then ['?'] else []

/-- Ranks, each in its brackets. -/
def rankText (rs : List (Stretch isRank)) : Text := rs.flatMap fun r => '[' :: (r.text ++ [']'])

variable {p : Char → Bool}

theorem stops_angles {accepts : Char → Bool} (hp : p '<' = false) (x : Option (Stretch accepts)) :
    Text.Stops p (angles x) := by
  cases x with
  | none => exact Text.stops_nil
  | some x => exact Text.stops_cons.mpr hp

theorem stops_mark (hp : p '?' = false) (present : Bool) : Text.Stops p (mark present) := by
  cases present with
  | true => exact Text.stops_cons.mpr hp
  | false => exact Text.stops_nil

theorem stops_rankText (hp : p '[' = false) (rs : List (Stretch isRank)) :
    Text.Stops p (rankText rs) := by
  cases rs with
  | nil => exact Text.stops_nil
  | cons r rs => exact Text.stops_cons.mpr hp

/-- A character of a type outside of its brackets, or of the words around it. -/
def isPlain (c : Char) : Bool := isWord c || isBlank c || c ∈ [',', '.', '?', '[', ']']

theorem isPlain_of_isWord (c : Char) (h : isWord c = true) : isPlain c = true := by
  simp [isPlain, h]

theorem isPlain_of_isBlank (c : Char) (h : isBlank c = true) : isPlain c = true := by
  simp [isPlain, h]

/-- A type: a dotted name, arguments, a mark of null, ranks and again a mark of null. -/
structure TypeText where
  base : Dotted
  arguments : Option (Stretch Shape.isTypeArgument)
  nullable : Bool
  ranks : List (Stretch isRank)
  nullableRanks : Bool

namespace TypeText

/-- The marks and ranks behind the arguments. -/
def marks (t : TypeText) : Text :=
  mark t.nullable ++ rankText t.ranks ++ mark t.nullableRanks

theorem stops_marks (hmark : p '?' = false) (hrank : p '[' = false) (t : TypeText) :
    Text.Stops p t.marks :=
  ((stops_mark hmark _).append (stops_rankText hrank _)).append (stops_mark hmark _)

theorem plain_marks (t : TypeText) : ∀ c ∈ t.marks, isPlain c = true := by
  have hmark : ∀ b, ∀ c ∈ mark b, isPlain c = true := fun b =>
    List.all_eq_true.mp (by cases b <;> decide)
  have hrank : ∀ c ∈ rankText t.ranks, isPlain c = true := by
    intro c hc
    obtain ⟨r, -, hc⟩ := List.mem_flatMap.mp hc
    simp only [List.mem_cons, List.mem_append, List.not_mem_nil, or_false] at hc
    rcases hc with rfl | hc | rfl
    · decide
    · have hclass := r.all c hc
      simp only [isRank, Bool.or_eq_true, beq_iff_eq] at hclass
      rcases hclass with rfl | hclass
      · decide
      · exact isPlain_of_isBlank c hclass
    · decide
  intro c hc
  simp only [marks, List.mem_append] at hc
  rcases hc with (hc | hc) | hc
  · exact hmark _ c hc
  · exact hrank c hc
  · exact hmark _ c hc

/-- No mark and no rank closes arguments. -/
theorem not_close_marks (t : TypeText) : '>' ∉ t.marks :=
  Stretch.not_mem ⟨t.marks, t.plain_marks⟩ (by decide)

def text (t : TypeText) : Text := t.base.text ++ angles t.arguments ++ t.marks

def ref (t : TypeText) : TypeRef :=
  ⟨t.text, t.base.text, t.arguments.map fun x => '<' :: (x.text ++ ['>'])⟩

end TypeText

/-- A base type: a dotted name and perhaps arguments. -/
structure BaseText where
  name : Dotted
  arguments : Option (Stretch Shape.isBaseArgument)

def BaseText.text (b : BaseText) : Text := b.name.text ++ angles b.arguments

/-- A base type behind a comma. -/
structure FurtherBase where
  before : Stretch isBlank
  after : Stretch isBlank
  base : BaseText

def FurtherBase.text (b : FurtherBase) : Text :=
  b.before.text ++ ',' :: (b.after.text ++ b.base.text)

/-- The base types behind a colon. -/
structure BasesText where
  before : Stretch isBlank
  after : Stretch isBlank
  first : BaseText
  more : List FurtherBase

namespace BasesText

def list (b : BasesText) : Text := b.first.text ++ b.more.flatMap (·.text)

def text (b : BasesText) : Text := b.before.text ++ ':' :: (b.after.text ++ b.list)

end BasesText

/-- What ends the head of a type: the end of the line, or an opening brace. -/
inductive Ending where
  | line
  | brace (gap : Stretch isBlank) (body : Text)

def Ending.text : Ending → Text
  | line => []
  | brace gap body => gap.text ++ '\x7b' :: body

/-- A type, from its modifiers on. -/
structure TypeLine where
  modifiers : List (Keyword typeModifiers)
  keyword : TypeKeyword
  space : Stretch1 isBlank
  name : Name
  parameters : Option (Stretch isBlank × Stretch (· != '>'))
  bases : Option BasesText
  ending : Ending

namespace TypeLine

def baseText (l : TypeLine) : Text := (l.bases.map (·.text)).getD []

def text (l : TypeLine) : Text :=
  modifierText l.modifiers ++ l.keyword.spelling ++ l.space.text ++ l.name.text ++
    parameterText l.parameters ++ l.baseText ++ l.ending.text

def kind (l : TypeLine) : Declaration.Kind :=
  .type l.keyword ((l.bases.map (·.list)).getD [])

end TypeLine

/-- A constructor, from its name on. -/
structure ConstructorLine extends ListText where
  name : Name
  gap : Stretch isBlank

namespace ConstructorLine

def text (l : ConstructorLine) : Text := l.name.text ++ l.gap.text ++ '(' :: l.rest

def kind (l : ConstructorLine) : Declaration.Kind := .constructor l.list

end ConstructorLine

/-- A method, from its modifiers on. -/
structure MethodLine extends ListText where
  modifiers : List (Keyword methodModifiers)
  returns : TypeText
  space : Stretch1 isBlank
  name : Name
  parameters : Option (Stretch isBlank × Stretch isTypeParameter)
  gap : Stretch isBlank

namespace MethodLine

/-- What stands behind the modifiers. -/
def body (l : MethodLine) : Text :=
  l.returns.text ++ l.space.text ++ l.name.text ++ parameterText l.parameters ++ l.gap.text ++
    '(' :: l.rest

def text (l : MethodLine) : Text := modifierText l.modifiers ++ l.body

/-- Whether a word is one of the modifiers. -/
def has (l : MethodLine) (word : Text) : Bool :=
  (l.modifiers.map (·.word.text)).contains word

def kind (l : MethodLine) : Declaration.Kind :=
  .method (l.has "static") (l.has "async") l.returns.ref l.list

end MethodLine

/-- An accessor: perhaps a modifier, then its word with blanks behind the semicolon. -/
structure AccessorText where
  modifier : Option (Keyword accessorModifiers)
  gap : Stretch isBlank

/-- The text of an accessor with a given word, empty if it is missing. -/
def accessorText (word : Text) : Option AccessorText → Text
  | none => []
  | some a => modifierText a.modifier.toList ++ word ++ a.gap.text

/-- A property, from its modifiers on. -/
structure PropertyLine where
  modifiers : List (Keyword propertyModifiers)
  type : TypeText
  space : Stretch1 isBlank
  name : Name
  gap : Stretch isBlank
  inner : Stretch isBlank
  getter : Option (Stretch isBlank)
  setter : Option AccessorText
  initer : Option AccessorText
  rest : Text

namespace PropertyLine

/-- The accessors behind the getter, and what follows them. -/
def setters (l : PropertyLine) : Text :=
  accessorText "set;" l.setter ++ (accessorText "init;" l.initer ++ '\x7d' :: l.rest)

/-- The accessors from behind the opening brace on. -/
def accessors (l : PropertyLine) : Text :=
  l.inner.text ++ (l.getter.map fun g => "get;".toList ++ g.text).getD [] ++ l.setters

/-- What stands behind the modifiers. -/
def body (l : PropertyLine) : Text :=
  l.type.text ++ l.space.text ++ l.name.text ++ l.gap.text ++ '\x7b' :: l.accessors

def text (l : PropertyLine) : Text := modifierText l.modifiers ++ l.body

def kind (l : PropertyLine) : Declaration.Kind :=
  .property l.type.ref ⟨l.getter.isSome, l.setter.isSome, l.initer.isSome⟩

end PropertyLine

/-- A line from behind its access modifier on. -/
inductive Body where
  | type (l : TypeLine)
  | constructor (l : ConstructorLine)
  | method (l : MethodLine)
  | property (l : PropertyLine)

namespace Body

def text : Body → Text
  | type l => l.text
  | constructor l => l.text
  | method l => l.text
  | property l => l.text

def name : Body → Name
  | type l => l.name
  | constructor l => l.name
  | method l => l.name
  | property l => l.name

def kind : Body → Declaration.Kind
  | type l => l.kind
  | constructor l => l.kind
  | method l => l.kind
  | property l => l.kind

end Body

/-- A line with a declaration. -/
structure Line where
  indent : Stretch isIndent
  access : AccessText
  body : Body

namespace Line

def text (l : Line) : Text := l.indent.text ++ SpacedWord.line l.access.words ++ l.body.text

/-- The declaration that the line stands for. -/
def declaration (l : Line) : Declaration :=
  ⟨l.indent.text, l.access.modifier, l.body.name.text, l.body.kind⟩

end Line
end TripleSlash.Canonical
