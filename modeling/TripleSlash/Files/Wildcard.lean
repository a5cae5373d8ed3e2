import TripleSlash.Text.Basic

/-! Wildcards: patterns for the names of files. -/
namespace TripleSlash.Wildcard

/-- Characters in brackets: single ones and ranges. -/
inductive Range where
  | single (c : Char)
  | between (lo hi : Char)
  deriving DecidableEq, Repr

def Range.has (c : Char) : Range → Bool
  | single d => c == d
  | between lo hi => lo ≤ c && c ≤ hi

/-- A part of a wildcard. -/
inductive Token where
  | char (c : Char)
  /-- Any one character. -/
  | any
  /-- Any number of characters. -/
  | many
  /-- One character of some ranges. -/
  | within (rs : List Range)
  /-- One character outside some ranges. -/
  | except (rs : List Range)
  deriving DecidableEq, Repr

/-- The ranges that stand in brackets. -/
def ranges : Text → List Range
  | lo :: '-' :: hi :: t => .between lo hi :: ranges t
  | c :: t => .single c :: ranges t
  | [] => []

/-- What stands in brackets in front of `t`, and how much of `t` belongs to them. At least one
character stands between the brackets, so that the first may be a closing bracket. -/
def bracketAt? (make : List Range → Token) : Text → Option (Token × Nat)
  | first :: t =>
    let inner := first :: t.takeWhile (· != ']')
    if inner.length ≤ t.length then some (make (ranges inner), inner.length + 1) else none
  | [] => none

/-- Passes over `skip` characters, then reads tokens. Two stars in a row and brackets that are
not closed are refused. -/
def parseFrom : Nat → Text → Option (List Token)
  | _, [] => some []
  | skip + 1, _ :: t => parseFrom skip t
  | 0, c :: t =>
    match c with
    | '?' => (parseFrom 0 t).map (.any :: ·)
    | '*' => if t.head? = some '*' then none else (parseFrom 0 t).map (.many :: ·)
    | '[' =>
      let bracket :=
        match t with
        | '!' :: t => (bracketAt? .except t).map fun (token, size) => (token, size + 1)
        | t => bracketAt? .within t
      match bracket with
      | some (token, size) => (parseFrom size t).map (token :: ·)
      | none => none
    | c => (parseFrom 0 t).map (.char c :: ·)

/-- A part of a pattern for paths: what stands between two slashes. -/
inductive Component where
  /-- Any number of directories. -/
  | anyDepth
  | name (tokens : List Token)
  deriving DecidableEq, Repr

/-- Two stars by themselves stand for any number of directories. -/
def component? (t : Text) : Option Component :=
  if t = "**".toList then some .anyDepth else (parseFrom 0 t).map .name

/-- All ends of a text, the longest first. -/
def ends : Text → List Text
  | [] => [[]]
  | c :: t => (c :: t) :: ends t

/-- Whether one character fits a token. -/
def Token.fits (c : Char) : Token → Bool
  | char d => c == d
  | any | many => true
  | within rs => rs.any (·.has c)
  | except rs => !rs.any (·.has c)

/-- Whether a name fits tokens. -/
def fits : List Token → Text → Bool
  | [], t => t.isEmpty
  | .many :: ts, t => (ends t).any (fits ts)
  | _ :: _, [] => false
  | token :: ts, c :: t => token.fits c && fits ts t

/-- The only name that fits tokens, if they are all characters. -/
def literal? (tokens : List Token) : Option Text :=
  tokens.mapM fun
    | .char c => some c
    | _ => none

end TripleSlash.Wildcard
