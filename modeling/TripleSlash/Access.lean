import TripleSlash.Text.Blank

/-! Access modifiers of declarations, and sets of them. -/
namespace TripleSlash

/-- Who may use a declaration. -/
inductive Access where
  | pub
  | internal
  | prot
  | protInternal
  | priv
  | privProt
  deriving DecidableEq, Repr

namespace Access

/-- Every modifier, in the order of lists of modifiers. -/
def all : List Access := [pub, internal, prot, protInternal, priv, privProt]

/-- The words of a modifier in a declaration. -/
def spelling : Access → Text
  | pub => "public"
  | internal => "internal"
  | prot => "protected"
  | protInternal => "protected internal"
  | priv => "private"
  | privProt => "private protected"

/-- The ways to write each modifier; two words may come in either order. -/
def forms : List (List Text × Access) :=
  [(["public"], pub), (["internal"], internal), (["protected"], prot), (["private"], priv),
   (["protected", "internal"], protInternal), (["internal", "protected"], protInternal),
   (["private", "protected"], privProt), (["protected", "private"], privProt)]

/-- Reads a modifier whose words stand between blanks. -/
def parse? (t : Text) : Option Access := forms.lookup (Text.fields isBlank t)

theorem mem_all (a : Access) : a ∈ all := by cases a <;> decide

theorem parse?_spelling (a : Access) : parse? a.spelling = some a := by cases a <;> decide

end Access

/-- A set of access modifiers, one switch for each. -/
structure AccessSet where
  pub : Bool
  internal : Bool
  prot : Bool
  protInternal : Bool
  priv : Bool
  privProt : Bool
  deriving DecidableEq, Repr

namespace AccessSet

def empty : AccessSet := ⟨false, false, false, false, false, false⟩

def contains (s : AccessSet) : Access → Bool
  | .pub => s.pub
  | .internal => s.internal
  | .prot => s.prot
  | .protInternal => s.protInternal
  | .priv => s.priv
  | .privProt => s.privProt

/-- Turns the switch of one modifier on or off. -/
def put (s : AccessSet) (a : Access) (on : Bool) : AccessSet :=
  match a with
  | .pub => { s with pub := on }
  | .internal => { s with internal := on }
  | .prot => { s with prot := on }
  | .protInternal => { s with protInternal := on }
  | .priv => { s with priv := on }
  | .privProt => { s with privProt := on }

def insert (s : AccessSet) (a : Access) : AccessSet := s.put a true

def erase (s : AccessSet) (a : Access) : AccessSet := s.put a false

def ofList (as : List Access) : AccessSet := as.foldl insert empty

/-- What is visible outside its type: all but the private modifiers. -/
def visible : AccessSet := ((ofList Access.all).erase .priv).erase .privProt

/-- The members in the order of `Access.all`. -/
def toList (s : AccessSet) : List Access := Access.all.filter s.contains

@[simp] theorem contains_put (s : AccessSet) (a b : Access) (on : Bool) :
    (s.put a on).contains b = if a = b then on else s.contains b := by
  cases a <;> cases b <;> rfl

end AccessSet
end TripleSlash
