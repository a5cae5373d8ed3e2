import TripleSlash.Declaration.Basic
import TripleSlash.Declaration.Shape
import TripleSlash.Parens

/-! Which lines are comments, attributes and declarations. A line is looked at on its own. -/
namespace TripleSlash

open Shape

/-- Whether a line is a documentation comment. -/
def isComment (line : Text) : Bool := commentLine.begins line

/-- Whether a line opens with an attribute. -/
def isAttribute (line : Text) : Bool := attributeLine.begins line

namespace Declaration

/-- What a shape captured of a line, and the text behind it. -/
abbrev Capture := Pattern.Reading Part

/-- The parameters at the start of a text that follows an opening parenthesis. -/
def parametersAt (t : Text) : ParameterText :=
  ⟨Parens.inside Parens.opened t, Parens.closes Parens.opened t⟩

def capturedType (m : Capture) : TypeRef :=
  ⟨m.text .type, m.text .base, m.parts.lookup .generic⟩

/-- Fills in what all kinds of declaration share. -/
def ofCapture? (m : Capture) (kind : Kind) : Option Declaration := do
  return ⟨m.text .indent, ← Access.parse? (m.text .access), m.text .name, kind⟩

def typeOfCapture? (m : Capture) : Option Declaration := do
  ofCapture? m (.type (← TypeKeyword.parse? (m.text .keyword)) (m.text .bases))

def constructorOfCapture? (m : Capture) : Option Declaration :=
  ofCapture? m (.constructor (parametersAt m.rest))

def methodOfCapture? (m : Capture) : Option Declaration :=
  let words := Text.fields isBlank (m.text .modifiers)
  ofCapture? m (.method (words.contains "static".toList) (words.contains "async".toList)
    (capturedType m) (parametersAt m.rest))

def propertyOfCapture? (m : Capture) : Option Declaration :=
  ofCapture? m (.property (capturedType m) ⟨m.has .getter, m.has .setter, m.has .initer⟩)

/-- The declaration on a line. The first shape that can be read decides, in the order of types,
constructors, methods and properties. -/
def recognize? (line : Text) : Option Declaration :=
  match typeLine.read? line with
  | some m => typeOfCapture? m
  | none =>
    match constructorLine.read? line with
    | some m => constructorOfCapture? m
    | none =>
      match methodLine.read? line with
      | some m => methodOfCapture? m
      | none =>
        match propertyLine.read? line with
        | some m => propertyOfCapture? m
        | none => none

end Declaration

/-- What a line is on its own. -/
inductive LineClass where
  | comment
  | attribute
  | declaration (d : Declaration)
  | other
  deriving DecidableEq, Repr

/-- Comments and attributes are told apart before declarations are looked for. -/
def classify (line : Text) : LineClass :=
  if isComment line then .comment
  else if isAttribute line then .attribute
  else match Declaration.recognize? line with
    | some d => .declaration d
    | none => .other

end TripleSlash
