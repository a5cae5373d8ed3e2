import TripleSlash.Toml.Number

/-! The words that are dates, times or both. -/
namespace TripleSlash.Toml.Moment

/-- The number of days of a month. -/
def days (year month : Nat) : Nat :=
  if month = 2 then
    if year % 4 = 0 ∧ (year % 100 ≠ 0 ∨ year % 400 = 0) then 29 else 28
  else if month ∈ [4, 6, 9, 11] then 30
  else 31

/-- Reads a number of `width` digits that is neither less than `least` nor more than `most`. -/
def part? (width least most : Nat) (t : Text) : Option (Nat × Text) := do
  let digits := t.take width
  let n ← Number.ofDigits? 10 digits
  if digits.length = width ∧ least ≤ n ∧ n ≤ most then return (n, t.drop width) else none

/-- The text behind a character. -/
def after? (c : Char) : Text → Option Text
  | [] => none
  | d :: t => if d = c then some t else none

/-- The text behind a date. -/
def afterDate? (t : Text) : Option Text := do
  let (year, t) ← part? 4 0 9999 t
  let (month, t) ← part? 2 1 12 (← after? '-' t)
  let (_, t) ← part? 2 1 (days year month) (← after? '-' t)
  return t

/-- The text behind an hour and a minute. -/
def afterMinute? (t : Text) : Option Text := do
  let (_, t) ← part? 2 0 23 t
  let (_, t) ← part? 2 0 59 (← after? ':' t)
  return t

/-- The text behind a second, which may have decimals. -/
def afterSecond? (t : Text) : Option Text := do
  let (_, t) ← part? 2 0 60 t
  match t with
  | '.' :: t =>
    if (t.takeWhile Char.isDigit).isEmpty then none else return t.dropWhile Char.isDigit
  | t => return t

/-- The text behind a time of the day. The second may be missing. -/
def afterTime? (t : Text) : Option Text := do
  match ← afterMinute? t with
  | ':' :: t => afterSecond? t
  | t => return t

/-- Whether a text is the distance from universal time or nothing. -/
def isOffset : Text → Bool
  | [] => true
  | ['Z'] => true
  | ['z'] => true
  | c :: t => (c == '+' || c == '-') && afterMinute? t == some []

/-- Whether a word is a date, a time, or both. Only a time behind a date may have an offset. -/
def isWord (t : Text) : Bool :=
  match afterDate? t with
  | none => afterTime? t == some []
  | some [] => true
  | some (c :: t) => (c == 'T' || c == 't' || c == ' ') && (afterTime? t).any isOffset

end TripleSlash.Toml.Moment
