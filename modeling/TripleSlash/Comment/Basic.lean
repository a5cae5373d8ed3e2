import TripleSlash.Parameter
import TripleSlash.Template.Basic

/-! The comment of a declaration. -/
namespace TripleSlash.Comment

open Template

/-- Begins a further line of a comment: a line break and the indent of the declaration. -/
def newline (lineBreak indent : Text) : Text := lineBreak ++ indent

/-- Stands in the comment of an open declaration where later parameters belong. -/
def marker : Text := hole "additional parameters"

variable (ts : Templates) (nl : Text)

/-- What every template can say: how a further line begins. -/
def lineValues : Values := [("nl", nl)]

/-- What templates can say about a parameter. -/
def parameterValues (p : Parameter) : Values := [("type", p.type), ("name", p.name)]

/-- What templates can say about a written type. -/
def typeValues (t : TypeRef) : Values :=
  [("type", t.written), ("baseType", t.base), ("genericType", t.inner), ("fullType", t.full)]

/-- The entry of one parameter, on a line of its own. -/
def parameterEntry (p : Parameter) : Text :=
  nl ++ fill (parameterValues p ++ lineValues nl) ts.parameter

/-- The entries of all parameters in a text. -/
def parameterEntries (t : Text) : Text := (Parameter.parseList t).flatMap (parameterEntry ts nl)

/-- The entries of the parameters on a declaration's line, and the marker if more follow. -/
def parameterBlock (ps : ParameterText) : Text :=
  parameterEntries ts nl ps.raw ++ if ps.complete then [] else marker

/-- The entry of a returned value, on a line of its own. -/
def returnsEntry (t : TypeRef) : Text :=
  if t.isVoid then [] else nl ++ fill (typeValues t ++ lineValues nl) ts.returns

/-- What templates can say about any declaration. -/
def headValues (d : Declaration) : Values := [("name", d.name), ("access", d.access.spelling)]

/-- What templates can say about a declaration of one kind. -/
def kindValues : Declaration.Kind → Values
  | .type keyword bases => [("type", keyword.spelling), ("inheritances", bases)]
  | .constructor ps => [("parameters", parameterBlock ts nl ps)]
  | .method _ _ returns ps =>
    ("parameters", parameterBlock ts nl ps) :: ("returns", returnsEntry ts nl returns) ::
      typeValues returns
  | .property type _ => typeValues type

/-- The template for a kind of declaration. -/
def template? : Declaration.Kind → Option Text
  | .type _ _ => some ts.type
  | .constructor _ => some ts.constructor
  | .method _ _ _ _ => some ts.method
  | .property _ accessors => ts.property? accessors

/-- A comment without its indent and its last line break. -/
def body? (d : Declaration) : Option Text :=
  (template? ts d.kind).map <| fill (headValues d ++ kindValues ts nl d.kind ++ lineValues nl)

/-- The comment of a declaration, if there is a template for it. Every line of it has the indent
of the declaration. -/
def render? (lineBreak : Text) (d : Declaration) : Option Text :=
  (body? ts (newline lineBreak d.indent) d).map fun body => d.indent ++ body ++ lineBreak

end TripleSlash.Comment
