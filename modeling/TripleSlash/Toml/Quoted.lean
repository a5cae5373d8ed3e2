import TripleSlash.Toml.Number

/-! The four quoted forms of a string: basic and literal, on one line or on many. -/
namespace TripleSlash.Toml

/-- A blank of a line: a space or a tab. -/
def isLineBlank (c : Char) : Bool := c == ' ' || c == '\t'

/-- A character that needs no escape: a tab, or anything that is not a control. -/
def isPlain (c : Char) : Bool := c == '\t' || (0x20 ≤ c.toNat && c.toNat != 0x7F)

/-- The text behind a line break, if the text begins with one. -/
def afterBreak? : Text → Option Text
  | '\n' :: t => some t
  | '\r' :: '\n' :: t => some t
  | _ => none

namespace Quoted

/-- The character that a letter behind a backslash stands for. -/
def escaped? (c : Char) : Option Char :=
  [('b', '\x08'), ('t', '\t'), ('n', '\n'), ('f', '\x0c'), ('r', '\r'), ('e', '\x1b'), ('"', '"'),
   ('\\', '\\')].lookup c

/-- The character with a hexadecimal number. -/
def ofHex? (digits : Text) : Option Char := do
  let n ← Number.ofDigits? 16 digits
  if n.isValidChar then return Char.ofNat n else none

/-- Puts a character in front of what was read. -/
def cons (c : Char) (r : Text × Text) : Text × Text := (c :: r.1, r.2)

/-- Reads a basic string behind its opening quote. Gives the string and the text behind it. -/
def readBasic : Text → Option (Text × Text)
  | [] => none
  | '"' :: t => some ([], t)
  | '\\' :: 'x' :: a :: b :: t => do return cons (← ofHex? [a, b]) (← readBasic t)
  | '\\' :: 'u' :: a :: b :: c :: d :: t => do
    return cons (← ofHex? [a, b, c, d]) (← readBasic t)
  | '\\' :: 'U' :: a :: b :: c :: d :: e :: f :: g :: h :: t => do
    return cons (← ofHex? [a, b, c, d, e, f, g, h]) (← readBasic t)
  | '\\' :: c :: t => do return cons (← escaped? c) (← readBasic t)
  | c :: t => do if isPlain c then return cons c (← readBasic t) else none

/-- Reads a literal string behind its opening quote. -/
def readLiteral : Text → Option (Text × Text)
  | [] => none
  | '\'' :: t => some ([], t)
  | c :: t => do if isPlain c then return cons c (← readLiteral t) else none

/-- The end of a long string behind three quotes: two more quotes may still belong to it. -/
def finish (quote : Char) (t : Text) : Text × Text :=
  let extra := (t.take 2).takeWhile (· == quote)
  (extra, t.drop extra.length)

/-- Whether a character of a long string may stand as it is. -/
def mayStand (c : Char) (t : Text) : Bool := isPlain c || (afterBreak? (c :: t)).isSome

/-- Reads a long basic string. A backslash at the end of a line takes out the blanks and line
breaks that follow; `skipping` tells that this goes on. -/
def readLongBasic (skipping : Bool) : Text → Option (Text × Text)
  | [] => none
  | '"' :: '"' :: '"' :: t => some (finish '"' t)
  | '\\' :: 'x' :: a :: b :: t => do return cons (← ofHex? [a, b]) (← readLongBasic false t)
  | '\\' :: 'u' :: a :: b :: c :: d :: t => do
    return cons (← ofHex? [a, b, c, d]) (← readLongBasic false t)
  | '\\' :: 'U' :: a :: b :: c :: d :: e :: f :: g :: h :: t => do
    return cons (← ofHex? [a, b, c, d, e, f, g, h]) (← readLongBasic false t)
  | '\\' :: c :: t =>
    if (afterBreak? ((c :: t).dropWhile isLineBlank)).isSome then readLongBasic true (c :: t)
    else do return cons (← escaped? c) (← readLongBasic false t)
  | c :: t =>
    if !mayStand c t then none
    else if skipping && (isLineBlank c || (afterBreak? (c :: t)).isSome) then
      readLongBasic true t
    else do return cons c (← readLongBasic false t)

/-- Reads a long literal string. -/
def readLongLiteral : Text → Option (Text × Text)
  | [] => none
  | '\'' :: '\'' :: '\'' :: t => some (finish '\'' t)
  | c :: t => do if mayStand c t then return cons c (← readLongLiteral t) else none

/-- The text of a long string begins behind a line break that follows the quotes. -/
def afterFirstBreak (t : Text) : Text := (afterBreak? t).getD t

/-- Reads a string of one line in either form. -/
def readShort? : Text → Option (Text × Text)
  | '"' :: t => readBasic t
  | '\'' :: t => readLiteral t
  | _ => none

/-- Reads a string in any form. -/
def read? : Text → Option (Text × Text)
  | '"' :: '"' :: '"' :: t => readLongBasic false (afterFirstBreak t)
  | '\'' :: '\'' :: '\'' :: t => readLongLiteral (afterFirstBreak t)
  | t => readShort? t

/-- How often a character stands in a row at most. -/
def longestRun (c : Char) (t : Text) : Nat :=
  (t.foldl (fun (run, longest) x =>
    let run := if x == c then run + 1 else 0
    (run, max run longest)) (0, 0)).2

/-- A hexadecimal digit. -/
def hexDigit (n : Nat) : Char := Char.ofNat (if n < 10 then '0'.toNat + n else 'A'.toNat + n - 10)

/-- A character in a basic string; line breaks may stand in a long one. -/
def escape (long : Bool) (c : Char) : Text :=
  match c with
  | '\x08' => "\\b"
  | '\t' => "\\t"
  | '\n' => if long then ['\n'] else "\\n"
  | '\x0c' => "\\f"
  | '\r' => "\\r"
  | '\\' => "\\\\"
  | c =>
    if isPlain c then [c]
    else "\\u00".toList ++ [hexDigit (c.toNat / 16), hexDigit (c.toNat % 16)]

/-- A text in a basic string. At most `limit` quotes stand in a row without an escape, of which
`quotes` are in front of the text. -/
def escapeAll (long : Bool) (limit quotes : Nat) : Text → Text
  | [] => []
  | '"' :: t =>
    if quotes < limit then '"' :: escapeAll long limit (quotes + 1) t
    else '\\' :: '"' :: escapeAll long limit 0 t
  | c :: t => escape long c ++ escapeAll long limit 0 t

def basic (t : Text) : Text := '"' :: escapeAll false 0 0 t ++ ['"']

def literal (t : Text) : Text := '\'' :: t ++ ['\'']

/-- A text of several lines begins on a line of its own. -/
def firstBreak (t : Text) : Text := if '\n' ∈ t then ['\n'] else []

def longBasic (t : Text) : Text :=
  "\"\"\"".toList ++ firstBreak t ++ escapeAll true 2 0 t ++ "\"\"\"".toList

def longLiteral (t : Text) : Text := "'''".toList ++ firstBreak t ++ t ++ "'''".toList

/-- Whether a text needs escapes for controls. A tab may stand everywhere, and a line feed in
long strings. -/
def hasControl (t : Text) : Bool := t.any fun c => !isPlain c && c != '\n'

/-- A text in the plainest form: on one line before long, and without escapes if there is a way. -/
def write (t : Text) : Text :=
  let control := hasControl t
  let lines := t.contains '\n'
  let backslash := t.contains '\\'
  let double := longestRun '"' t
  let single := longestRun '\'' t
  if !control && !lines && !backslash && double == 0 then basic t
  else if !control && !lines && single == 0 then literal t
  else if !control && !backslash && double ≤ 2 then longBasic t
  else if !control && single ≤ 2 then longLiteral t
  else if lines then longBasic t
  else basic t

end Quoted
end TripleSlash.Toml
