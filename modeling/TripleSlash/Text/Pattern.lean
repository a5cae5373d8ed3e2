import TripleSlash.Text.Basic

/-!
Patterns over texts. A pattern may read the same text in several ways; the readings come in the
order of preference, and the first is the one that counts.
-/
namespace TripleSlash

/-- A pattern whose captured parts carry labels of type `ι`. -/
inductive Pattern (ι : Type) where
  /-- Reads nothing. -/
  | done
  /-- Reads one character of a class. -/
  | one (accepts : Char → Bool)
  /-- Reads all the characters of a class that come next. -/
  | run (accepts : Char → Bool)
  /-- Reads the first pattern, then the second. -/
  | seq (first second : Pattern ι)
  /-- Reads the first pattern, or else the second. -/
  | alt (first second : Pattern ι)
  /-- Reads the pattern again and again, preferably often. -/
  | star (body : Pattern ι)
  /-- Reads the pattern in the preferred way only. -/
  | commit (body : Pattern ι)
  /-- Captures what the pattern reads under a label. -/
  | part (label : ι) (body : Pattern ι)

namespace Pattern

variable {ι : Type}

/-- One way to read the start of a text: the captured parts and the text that is left. -/
structure Reading (ι : Type) where
  parts : List (ι × Text)
  rest : Text
  deriving Repr, DecidableEq

namespace Reading

/-- Adds the parts captured before this reading. -/
def after (parts : List (ι × Text)) (m : Reading ι) : Reading ι :=
  { m with parts := parts ++ m.parts }

/-- The text captured under a label, empty if there is none. -/
def text [BEq ι] (m : Reading ι) (label : ι) : Text := (m.parts.lookup label).getD []

/-- Whether something was captured under a label. -/
def has [BEq ι] (m : Reading ι) (label : ι) : Bool := (m.parts.lookup label).isSome

end Reading

/-- Readings of up to `n` repetitions, the most first. -/
def repeated (body : Text → List (Reading ι)) : Nat → Text → List (Reading ι)
  | 0, t => [⟨[], t⟩]
  | n + 1, t =>
    (body t).flatMap (fun m => (repeated body n m.rest).map (·.after m.parts)) ++ [⟨[], t⟩]

/-- All readings of the start of a text, in order of preference. -/
def readings : Pattern ι → Text → List (Reading ι)
  | done, t => [⟨[], t⟩]
  | one _, [] => []
  | one accepts, c :: t => if accepts c then [⟨[], t⟩] else []
  | run accepts, t => [⟨[], t.dropWhile accepts⟩]
  | seq p q, t => (p.readings t).flatMap fun m => (q.readings m.rest).map (·.after m.parts)
  | alt p q, t => p.readings t ++ q.readings t
  | star p, t => repeated p.readings t.length t
  | commit p, t => (p.readings t).take 1
  | part label p, t => (p.readings t).map fun m =>
      { m with parts := (label, t.take (t.length - m.rest.length)) :: m.parts }

/-- The preferred reading, if there is one. -/
def read? (p : Pattern ι) (t : Text) : Option (Reading ι) := (p.readings t).head?

/-- Whether the text starts with the pattern. -/
def begins (p : Pattern ι) (t : Text) : Bool := (p.read? t).isSome

/-- Reads a given text. -/
def text (t : Text) : Pattern ι := t.foldr (fun c p => seq (one (· == c)) p) done

/-- Reads the pattern if it can. -/
def opt (p : Pattern ι) : Pattern ι := alt p done

/-- Reads all the characters of a class that come next; there must be one. -/
def run1 (accepts : Char → Bool) : Pattern ι := seq (one accepts) (run accepts)

/-- Reads the patterns one after the other. -/
def all (ps : List (Pattern ι)) : Pattern ι := ps.foldr seq done

/-- Reads the earliest of the patterns that can be read; there must be one. -/
def oneOf (p : Pattern ι) : List (Pattern ι) → Pattern ι
  | [] => p
  | q :: qs => alt p (oneOf q qs)

end Pattern
end TripleSlash
