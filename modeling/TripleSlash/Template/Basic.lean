import TripleSlash.Template.Fill
import TripleSlash.Declaration.Basic

/-! The templates of comments, one for each kind of declaration and each part of one. -/
namespace TripleSlash

/-- The templates that a pass uses. -/
structure Templates where
  /-- For types of every keyword. -/
  type : Text
  constructor : Text
  method : Text
  /-- For one parameter of a constructor or method. -/
  parameter : Text
  /-- For what a method returns, unless that is nothing. -/
  returns : Text
  get : Text
  getSet : Text
  getInit : Text
  set : Text
  init : Text
  deriving DecidableEq, Repr

namespace Templates

open Template (hole)

/-- A summary of one line. -/
def summary (body : Text) : Text :=
  "/// <summary>".toList ++ hole "nl" ++ "/// ".toList ++ body ++ ".".toList ++ hole "nl" ++
    "/// </summary>".toList

/-- A summary that says what a property does with its value. -/
def accessorSummary (verbs : Text) : Text := summary (verbs ++ " the ".toList ++ hole "name")

/-- The templates in use where none are set. -/
def stock : Templates where
  type := summary ("The ".toList ++ hole "name" ++ " ".toList ++ hole "type")
  constructor :=
    summary ("Initializes a new instance of the <see cref=\"".toList ++ hole "name" ++
      "\"/> class".toList) ++ hole "parameters"
  method := summary (hole "name") ++ hole "parameters" ++ hole "returns"
  parameter :=
    "/// <param name=\"".toList ++ hole "name" ++ "\">The ".toList ++ hole "name" ++
      ".</param>".toList
  returns := "/// <returns>A <see cref=\"".toList ++ hole "baseType" ++ "\"/>.</returns>".toList
  get := accessorSummary "Gets"
  getSet := accessorSummary "Gets or sets"
  getInit := accessorSummary "Gets or initializes"
  set := accessorSummary "Sets"
  init := accessorSummary "Initializes"

/-- The template for a property. There is none without accessors, and none where a setter and
an initializer stand together. -/
def property? (ts : Templates) : Accessors → Option Text
  | ⟨true, false, false⟩ => some ts.get
  | ⟨true, true, false⟩ => some ts.getSet
  | ⟨true, false, true⟩ => some ts.getInit
  | ⟨false, true, false⟩ => some ts.set
  | ⟨false, false, true⟩ => some ts.init
  | _ => none

/-- Names one of the templates. -/
inductive Slot where
  | type
  | constructor
  | method
  | parameter
  | returns
  | get
  | getSet
  | getInit
  | set
  | init
  deriving DecidableEq, Repr

/-- Every template, in the order of a settings file. -/
def Slot.all : List Slot :=
  [type, constructor, method, parameter, returns, get, getSet, getInit, set, init]

/-- The template under a name. -/
def template (ts : Templates) : Slot → Text
  | .type => ts.type
  | .constructor => ts.constructor
  | .method => ts.method
  | .parameter => ts.parameter
  | .returns => ts.returns
  | .get => ts.get
  | .getSet => ts.getSet
  | .getInit => ts.getInit
  | .set => ts.set
  | .init => ts.init

/-- Changes the template under a name. -/
def put (ts : Templates) (slot : Slot) (t : Text) : Templates :=
  match slot with
  | .type => { ts with type := t }
  | .constructor => { ts with constructor := t }
  | .method => { ts with method := t }
  | .parameter => { ts with parameter := t }
  | .returns => { ts with returns := t }
  | .get => { ts with get := t }
  | .getSet => { ts with getSet := t }
  | .getInit => { ts with getInit := t }
  | .set => { ts with set := t }
  | .init => { ts with init := t }

@[simp] theorem template_put (ts : Templates) (a b : Slot) (t : Text) :
    (ts.put a t).template b = if a = b then t else ts.template b := by
  cases a <;> cases b <;> rfl

theorem Slot.mem_all (s : Slot) : s ∈ all := by cases s <;> decide

end Templates
end TripleSlash
