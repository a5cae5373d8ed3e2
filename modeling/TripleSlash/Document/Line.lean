import TripleSlash.Text.Basic

/-! Documents as lines. A line ends in a line feed, perhaps with a carriage return before it, and
the last one need not end. -/
namespace TripleSlash

/-- What stands between two lines. -/
inductive LineBreak where
  | lf
  | crlf
  deriving DecidableEq, Repr

def LineBreak.text : LineBreak → Text
  | lf => ['\n']
  | crlf => ['\r', '\n']

/-- A line of a document; only the last one may go without a line break. -/
structure Line where
  text : Text
  ending : Option LineBreak
  deriving DecidableEq, Repr

namespace Line

/-- The line with its line break. -/
def full (l : Line) : Text := l.text ++ (l.ending.map LineBreak.text).getD []

/-- Puts a character in front of the lines of a text. -/
def cons (c : Char) (lines : List Line) : List Line :=
  match c, lines with
  | '\n', lines => ⟨[], some .lf⟩ :: lines
  | '\r', ⟨[], some .lf⟩ :: lines => ⟨[], some .crlf⟩ :: lines
  | c, [] => [⟨[c], none⟩]
  | c, l :: lines => { l with text := c :: l.text } :: lines

/-- The lines of a text. No empty line follows the last line break. -/
def ofText (t : Text) : List Line := t.foldr cons []

/-- The text of some lines. -/
def join (lines : List Line) : Text := lines.flatMap full

@[simp] theorem join_nil : join [] = [] := rfl

@[simp] theorem join_cons (l : Line) (lines : List Line) :
    join (l :: lines) = l.full ++ join lines := rfl

theorem join_cons_char (c : Char) (lines : List Line) : join (cons c lines) = c :: join lines := by
  unfold cons
  split <;> simp [full, LineBreak.text]

/-- Nothing is lost between the lines of a text. -/
theorem join_ofText (t : Text) : join (ofText t) = t := by
  induction t with
  | nil => rfl
  | cons c t ih => exact (join_cons_char c (ofText t)).trans (congrArg (c :: ·) ih)

/-- The first line break of a document, a line feed where there is none. -/
def firstBreak (lines : List Line) : LineBreak := (lines.findSome? ending).getD .lf

end Line
end TripleSlash
