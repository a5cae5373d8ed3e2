import TripleSlash.Text.Basic

/-! Digits of a base, and the words that are numbers. -/
namespace TripleSlash.Toml.Number

/-- The value of a hexadecimal digit. -/
def hexDigit? (c : Char) : Option Nat :=
  if c.isDigit then some (c.toNat - '0'.toNat)
  else if 'a' ≤ c ∧ c ≤ 'f' then some (c.toNat - 'a'.toNat + 10)
  else if 'A' ≤ c ∧ c ≤ 'F' then some (c.toNat - 'A'.toNat + 10)
  else none

/-- The value of a digit, if the base has it. -/
def digit? (base : Nat) (c : Char) : Option Nat := (hexDigit? c).filter (· < base)

/-- The value of a row of digits. -/
def ofDigits? (base : Nat) (digits : Text) : Option Nat :=
  digits.foldlM (fun n c => (digit? base c).map (base * n + ·)) 0

/-- Whether a character is a digit of a base. -/
def isDigit (base : Nat) (c : Char) : Bool := (digit? base c).isSome

def isSign (c : Char) : Bool := c == '+' || c == '-'

def dropSign : Text → Text
  | [] => []
  | c :: t => if isSign c then t else c :: t

/-- Whether each underscore of a text stands between two digits, or behind a sign that begins the
text and in front of a digit. -/
def isGrouped (base : Nat) (t : Text) : Bool :=
  let rows := t.splitAtChars (· == '_')
  (rows.zip rows.tail).all fun (left, right) =>
    (left.getLast?.any (isDigit base) || left == ['+'] || left == ['-']) &&
      right.head?.any (isDigit base)

/-- Whether a text is digits of a base. It may be empty. -/
def areDigits (base : Nat) (t : Text) : Bool :=
  t.all (fun c => isDigit base c || c == '_') && isGrouped base t

/-- Whether a text is a whole decimal number. From its first underscore on, only the characters
beside an underscore are looked at, and they may be digits of any base. -/
def isWhole (t : Text) : Bool :=
  let number := dropSign t
  match number.dropWhile Char.isDigit with
  | [] => number.length == 1 || (!number.isEmpty && number.head? != some '0')
  | '_' :: _ => number.head? != some '0' && isGrouped 16 t
  | _ => false

/-- A character of a decimal row of digits. -/
def isDecimalPart (c : Char) : Bool := c.isDigit || c == '_'

/-- Whether a text is an exponent or nothing. -/
def isExponent : Text → Bool
  | [] => true
  | c :: t =>
    let digits := dropSign t
    (c == 'e' || c == 'E') && digits.any Char.isDigit && digits.all isDecimalPart

/-- Whether a text may follow a whole number: a fraction, an exponent, both or nothing. -/
def isFraction : Text → Bool
  | '.' :: t =>
    (t.takeWhile isDecimalPart).any Char.isDigit && isExponent (t.dropWhile isDecimalPart)
  | t => isExponent t

/-- Whether a text is a decimal number with a fraction or an exponent. -/
def isFloat (t : Text) : Bool :=
  let number := dropSign t
  let mantissa := number.takeWhile isDecimalPart
  let digits := mantissa.countP Char.isDigit
  (digits == 1 || (digits != 0 && mantissa.head? != some '0')) &&
    isFraction (number.dropWhile isDecimalPart) && isGrouped 10 t

/-- Whether a word is a number. Its size does not matter. -/
def isWord : Text → Bool
  | '0' :: 'x' :: t => areDigits 16 t
  | '0' :: 'o' :: t => areDigits 8 t
  | '0' :: 'b' :: t => areDigits 2 t
  | t =>
    let number := dropSign t
    if number == "inf".toList || number == "nan".toList then true
    else if number.any ".eE".toList.contains then isFloat t
    else isWhole t

end TripleSlash.Toml.Number
