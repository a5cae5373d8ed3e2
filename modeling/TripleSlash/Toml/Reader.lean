import TripleSlash.Toml.Moment
import TripleSlash.Toml.Quoted
import TripleSlash.Toml.Value

/-!
Configuration documents, read from their text. Arrays of tables are not read, since no setting
takes them; of numbers, dates and times only the words are kept.
-/
namespace TripleSlash.Toml

def skipBlank (t : Text) : Text := t.dropWhile isLineBlank

def skipComment : Text → Text
  | '#' :: t => t.dropWhile isPlain
  | t => t

/-- The text below a line of which nothing is left but blanks and a comment. -/
def endLine? (t : Text) : Option Text :=
  match skipComment (skipBlank t) with
  | [] => some []
  | t => afterBreak? t

/-- A character of a key that stands without quotes. -/
def isBareKey (c : Char) : Bool := c.isAlphanum || c == '_' || c == '-'

/-- Reads one part of a key. -/
def readKeyPart (t : Text) : Option (Text × Text) :=
  match Quoted.readShort? t with
  | some r => some r
  | none =>
    let key := t.takeWhile isBareKey
    if key.isEmpty then none else some (key, t.dropWhile isBareKey)

/-- Reads a key of at most so many parts between dots, with the blanks around it. -/
def readKey : Nat → Text → Option (List Text × Text)
  | 0, _ => none
  | n + 1, t => do
    let (part, t) ← readKeyPart (skipBlank t)
    match skipBlank t with
    | '.' :: t =>
      let (parts, t) ← readKey n t
      return (part :: parts, t)
    | t => return ([part], t)

/-- The number of parts that a key may have. -/
def keyLimit : Nat := 80

/-- Passes over blanks, comments and line breaks in at most `n` steps. -/
def skipLinesUpTo : Nat → Text → Text
  | 0, t => t
  | n + 1, t =>
    match skipBlank t with
    | '#' :: rest => skipLinesUpTo n (skipComment ('#' :: rest))
    | rest =>
      match afterBreak? rest with
      | some rest => skipLinesUpTo n rest
      | none => rest

/-- Passes over blanks, comments and line breaks. -/
def skipLines (t : Text) : Text := skipLinesUpTo t.length t

/-- A character of a word. -/
def isWordPart (c : Char) : Bool := !"=,[]\x7b\x7d \t#\r\n".toList.contains c

/-- Cuts a word off a text. A date and a time may stand with a space between them. -/
def cutWord (t : Text) : Text × Text :=
  let word := t.takeWhile isWordPart
  let rest := t.dropWhile isWordPart
  let second := (rest.drop 1).takeWhile isWordPart
  if rest.head? = some ' ' ∧ Moment.isWord (word ++ ' ' :: second) then
    (word ++ ' ' :: second, (rest.drop 1).dropWhile isWordPart)
  else (word, rest)

/-- Reads a value that is no array and no table. -/
def readScalar (t : Text) : Option (Value × Text) :=
  match Quoted.read? t with
  | some (s, t) => some (.string s, t)
  | none =>
    let (word, t) := cutWord t
    if word = "true".toList then some (.boolean true, t)
    else if word = "false".toList then some (.boolean false, t)
    else if Number.isWord word || Moment.isWord word then some (.word word, t)
    else none

mutual

/-- Reads a value. Arrays and tables in it nest no deeper than `depth`. -/
def readValue : Nat → (depth : Nat) → Text → Option (Value × Text)
  | n + 1, depth + 1, '[' :: t => readArray n depth [] (skipLines t)
  | n + 1, depth + 1, '\x7b' :: t => readInline n depth [] (skipLines t)
  | _, _, t => readScalar t

/-- Reads the rest of an array behind the values `vs` and a comma. -/
def readArray : Nat → (depth : Nat) → List Value → Text → Option (Value × Text)
  | 0, _, _, _ => none
  | n + 1, depth, vs, t =>
    match t with
    | ']' :: t => some (.array vs, t)
    | t => do
      let (v, t) ← readValue n depth t
      match skipLines t with
      | ',' :: t => readArray n depth (vs ++ [v]) (skipLines t)
      | ']' :: t => return (.array (vs ++ [v]), t)
      | _ => none

/-- Reads the rest of a table that is written as a value, behind the entries `es` and a comma. -/
def readInline : Nat → (depth : Nat) → Entries → Text → Option (Value × Text)
  | 0, _, _, _ => none
  | n + 1, depth, es, t =>
    match t with
    | '\x7d' :: t => some (.table .inline es, t)
    | t => do
      let (path, t) ← readKey keyLimit t
      match skipLines t with
      | '=' :: t =>
        let (v, t) ← readValue n depth (skipLines t)
        let es ← es.assign v path
        match skipLines t with
        | ',' :: t => readInline n depth es (skipLines t)
        | '\x7d' :: t => return (.table .inline es, t)
        | _ => none
      | _ => none

end

/-- How deep arrays and tables may nest in a value. -/
def depthLimit : Nat := 80

/-- Reads one statement. -/
def readStatement : Text → Option (Statement × Text)
  | '[' :: t => do
    let (path, t) ← readKey keyLimit t
    match t with
    | ']' :: t => return (.header path, t)
    | _ => none
  | t => do
    let (path, t) ← readKey keyLimit t
    match t with
    | '=' :: t =>
      let (v, t) ← readValue (2 * t.length + 2) depthLimit (skipBlank t)
      return (.value path v, t)
    | _ => none

/-- Reads the statements of at most `n` lines. -/
def readStatements : Nat → Text → Option (List Statement)
  | _, [] => some []
  | 0, _ => none
  | n + 1, t =>
    match endLine? t with
    | some t => readStatements n t
    | none => do
      let (s, t) ← readStatement (skipBlank t)
      return s :: (← readStatements n (← endLine? t))

/-- Reads a document, which may begin with a byte order mark. -/
def read? (t : Text) : Option Entries :=
  let t := match t with
    | '\uFEFF' :: t => t
    | t => t
  (readStatements t.length t).bind Entries.ofStatements?

end TripleSlash.Toml
