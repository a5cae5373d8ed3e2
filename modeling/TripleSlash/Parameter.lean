import TripleSlash.Text.Blank

/-! Parameter lists. Separators count at the top level only, outside all brackets. -/
namespace TripleSlash

namespace Brackets

def opening : List Char := ['<', '(', '[']

def closing : List Char := ['>', ')', ']']

/-- Depth behind a character. A closing bracket at depth zero leaves it there. -/
def step (depth : Nat) (c : Char) : Nat :=
  if c ∈ opening then depth + 1 else if c ∈ closing then depth - 1 else depth

/-- Depth behind a text. -/
def depthAfter (depth : Nat) (t : Text) : Nat := t.foldl step depth

/-- Whether a character is a separator that counts at a depth. -/
def cuts (sep : Char → Bool) (depth : Nat) (c : Char) : Bool :=
  depth == 0 && c ∉ opening && c ∉ closing && sep c

/-- The pieces of a text between the separators at depth zero. -/
def split (sep : Char → Bool) : Nat → Text → List Text
  | _, [] => [[]]
  | depth, c :: t =>
    if cuts sep depth c then [] :: split sep depth t
    else (split sep (step depth c) t).modifyHead (c :: ·)

/-- The text in front of the first separator at depth zero. -/
def before (sep : Char → Bool) : Nat → Text → Text
  | _, [] => []
  | depth, c :: t =>
    if cuts sep depth c then [] else c :: before sep (step depth c) t

end Brackets

/-- A parameter as its declaration writes it. -/
structure Parameter where
  type : Text
  name : Text
  deriving DecidableEq, Repr

namespace Parameter

/-- The tokens of one parameter, without its default value. -/
def tokens (t : Text) : List Text :=
  (Brackets.split isBlank 0 (Brackets.before (· == '=') 0 t)).filter (!·.isEmpty)

/-- The last two tokens are type and name; modifiers and attributes stand before them. -/
def parse? (t : Text) : Option Parameter :=
  match (tokens t).reverse with
  | name :: type :: _ => some ⟨type, name⟩
  | _ => none

/-- The parameters of a list; what is too short to be one is left out. -/
def parseList (t : Text) : List Parameter :=
  (Brackets.split (· == ',') 0 t).filterMap parse?

end Parameter
end TripleSlash
