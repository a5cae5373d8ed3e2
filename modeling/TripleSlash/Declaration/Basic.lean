import TripleSlash.Access
import TripleSlash.TypeRef

/-! Declarations as one line shows them. -/
namespace TripleSlash

/-- The word that tells which kind of type is declared. -/
inductive TypeKeyword where
  | class_
  | interface
  | struct
  | enum
  deriving DecidableEq, Repr

namespace TypeKeyword

def spelling : TypeKeyword → Text
  | class_ => "class"
  | interface => "interface"
  | struct => "struct"
  | enum => "enum"

def all : List TypeKeyword := [class_, interface, struct, enum]

def parse? (t : Text) : Option TypeKeyword := all.find? (·.spelling = t)

theorem parse?_spelling (k : TypeKeyword) : parse? k.spelling = some k := by
  cases k <;> decide

end TypeKeyword

/-- The parameters of a declaration as far as its own line gives them. -/
structure ParameterText where
  /-- What stands behind the opening parenthesis, up to the closing one if that is there. -/
  raw : Text
  /-- Whether the closing parenthesis is on the line. -/
  complete : Bool
  deriving DecidableEq, Repr

/-- Which accessors a property has. -/
structure Accessors where
  get : Bool
  set : Bool
  init : Bool
  deriving DecidableEq, Repr

/-- What a declaration declares. -/
inductive Declaration.Kind where
  /-- A type with the list of its base types, empty if there is none. -/
  | type (keyword : TypeKeyword) (bases : Text)
  | constructor (parameters : ParameterText)
  | method (isStatic isAsync : Bool) (returns : TypeRef) (parameters : ParameterText)
  | property (type : TypeRef) (accessors : Accessors)
  deriving DecidableEq, Repr

/-- A declaration: what every kind has, and what its kind adds. -/
structure Declaration where
  indent : Text
  access : Access
  name : Text
  kind : Declaration.Kind
  deriving DecidableEq, Repr

namespace Declaration

def parameters? (d : Declaration) : Option ParameterText :=
  match d.kind with
  | .constructor ps | .method _ _ _ ps => some ps
  | .type _ _ | .property _ _ => none

/-- The text of the parameters on the declaration's line, empty where a kind has none. -/
def rawParameters (d : Declaration) : Text := (d.parameters?.map (·.raw)).getD []

/-- Whether the parameters go on below the declaration's line. -/
def isOpen (d : Declaration) : Bool := d.parameters?.any (!·.complete)

end Declaration
end TripleSlash
