import TripleSlash.Text.Blank
import TripleSlash.Text.Word
import TripleSlash.Text.Pattern

/-! The shapes of lines: comments, attributes and the four kinds of declaration. -/
namespace TripleSlash.Shape

/-- The parts of a declaration that its shape captures. -/
inductive Part where
  | indent
  | access
  | modifiers
  | keyword
  | name
  | bases
  | type
  | base
  | generic
  | getter
  | setter
  | initer
  deriving DecidableEq, Repr

open Pattern

/-- A pattern over the line of a declaration. -/
abbrev LinePattern := Pattern Part

/-- Any number of blanks. -/
def gap : LinePattern := run isBlank

/-- At least one blank. -/
def space : LinePattern := run1 isBlank

/-- A word of the language. -/
def word (s : String) : LinePattern := text s

/-- One of several words; there must be one. -/
def anyWord (s : String) (more : List String) : LinePattern := oneOf (word s) (more.map word)

/-- A name: word characters. -/
def name : LinePattern := run1 isWord

def indent : LinePattern := part .indent (run isIndent)

/-- An access modifier; a pair of words is preferred to the single word that begins it. -/
def access : LinePattern :=
  part .access <| oneOf (word "public")
    [all [word "internal", space, word "protected"],
     word "internal",
     all [word "protected", space, word "internal"],
     all [word "protected", space, word "private"],
     word "protected",
     all [word "private", space, word "protected"],
     word "private"]

/-- Any number of modifiers, each with the blanks behind it. -/
def modifiers (s : String) (more : List String) : LinePattern := star (seq (anyWord s more) space)

/-- Angle brackets around characters of a class. They close at the last `>` that lets the rest
of the shape be read. -/
def angled (accepts : Char → Bool) : LinePattern :=
  all [text "<", star (one accepts), text ">"]

/-- Angle brackets around characters of a class that has no `>`. -/
def angledFlat (accepts : Char → Bool) : LinePattern :=
  all [text "<", run accepts, text ">"]

/-- A rank: brackets around commas and blanks. -/
def rank : LinePattern :=
  all [text "[", run (fun c => c == ',' || isBlank c), text "]"]

/-- A character inside the arguments of a written type. -/
def isTypeArgument (c : Char) : Bool :=
  isWord c || isBlank c || c ∈ [',', '.', '?', '<', '>', '[', ']']

/-- A character inside the arguments of a base type. -/
def isBaseArgument (c : Char) : Bool :=
  isWord c || isBlank c || c ∈ [',', '.', '<', '>']

/-- A type: a dotted name, arguments, a mark of null, ranks and again a mark of null. -/
def type : LinePattern :=
  part .type <| all
    [part .base (seq name (star (seq (text ".") name))),
     opt (part .generic (angled isTypeArgument)),
     opt (text "?"), star rank, opt (text "?")]

/-- One base type: a dotted name and perhaps arguments, which close as late as they can. -/
def baseType : LinePattern :=
  seq (run1 fun c => isWord c || c == '.') (commit (opt (angled isBaseArgument)))

/-- The base types behind a colon. -/
def bases : LinePattern :=
  part .bases (seq baseType (star (all [gap, text ",", gap, baseType])))

/-- A type declaration, up to its base types. -/
def typeLine : LinePattern := all
  [indent, access, space,
   modifiers "static" ["abstract", "sealed", "partial", "readonly", "unsafe", "ref", "new"],
   part .keyword (anyWord "class" ["interface", "struct", "enum"]), space,
   part .name name,
   opt (seq gap (angledFlat (· != '>'))),
   opt (all [gap, text ":", gap, bases])]

/-- A constructor, up to the parenthesis that opens its parameters. -/
def constructorLine : LinePattern := all
  [indent, access, space, part .name name, gap, text "("]

/-- A method, up to the parenthesis that opens its parameters. -/
def methodLine : LinePattern := all
  [indent, access, space,
   part .modifiers (modifiers "static"
     ["async", "virtual", "override", "abstract", "sealed", "new", "extern", "unsafe", "partial"]),
   type, space, part .name name, gap,
   opt (angledFlat fun c => c ∉ ['<', '>', '(', ')']), gap, text "("]

/-- An accessor other than the getter may have an access modifier of its own. -/
def accessor (label : Part) (s : String) : LinePattern :=
  opt (part label (seq (opt (seq (anyWord "private" ["protected", "internal"]) space)) (word s)))

/-- A property, up to the brace behind its accessors. -/
def propertyLine : LinePattern := all
  [indent, access, space,
   modifiers "static" ["virtual", "override", "abstract", "sealed", "new", "required", "readonly",
     "unsafe", "extern"],
   type, space, part .name name, gap, text "\x7b", gap,
   opt (part .getter (word "get;")), gap,
   accessor .setter "set;", gap,
   accessor .initer "init;", gap, text "\x7d"]

/-- A documentation comment, up to its slashes. -/
def commentLine : LinePattern := seq (run isIndent) (text "///")

/-- An attribute, up to its bracket. -/
def attributeLine : LinePattern := seq (run isIndent) (text "[")

end TripleSlash.Shape
