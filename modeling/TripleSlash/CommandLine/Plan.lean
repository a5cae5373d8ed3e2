import TripleSlash.Scan.Edit

/-! Plans of edits as JSON, each level indented by two spaces. -/
namespace TripleSlash

/-- The edits of one file. -/
structure Plan where
  file : Text
  edits : List Edit
  deriving DecidableEq, Repr

namespace Plan

/-- A character in a quoted string. Only quotes, backslashes and controls are escaped. -/
def escape (c : Char) : Text :=
  match c with
  | '"' => "\\\""
  | '\\' => "\\\\"
  | '\x08' => "\\b"
  | '\t' => "\\t"
  | '\n' => "\\n"
  | '\x0c' => "\\f"
  | '\r' => "\\r"
  | c =>
    if c.toNat < 0x20 then
      "\\u00".toList ++ [Nat.digitChar (c.toNat / 16), Nat.digitChar (c.toNat % 16)]
    else [c]

def quote (t : Text) : Text := '"' :: t.flatMap escape ++ ['"']

/-- The beginning of a line at a level. -/
def newline (level : Nat) : Text := '\n' :: List.replicate (2 * level) ' '

/-- Items between brackets at a level. Each has a line of its own; no items need no line. -/
def block (opening closing : Char) (level : Nat) (items : List Text) : Text :=
  if items.isEmpty then [opening, closing]
  else
    opening :: [','].intercalate (items.map (newline (level + 1) ++ ·)) ++ newline level ++
      [closing]

def field (key value : Text) : Text := quote key ++ ": ".toList ++ value

def object (level : Nat) (fields : List Text) : Text := block '\x7b' '\x7d' level fields

def array (level : Nat) (items : List Text) : Text := block '[' ']' level items

def writeEdit (level : Nat) : Edit → Text
  | .insert line text =>
    object level [field "kind" (quote "insert"), field "line" (toString line),
      field "text" (quote text)]
  | .delete line => object level [field "kind" (quote "delete"), field "line" (toString line)]

def writeEdits (level : Nat) (es : List Edit) : Text :=
  array level (es.map (writeEdit (level + 1)))

def write (level : Nat) (p : Plan) : Text :=
  object level [field "file" (quote p.file), field "edits" (writeEdits (level + 1) p.edits)]

def writeAll (ps : List Plan) : Text := array 0 (ps.map (write 1))

end Plan
end TripleSlash
