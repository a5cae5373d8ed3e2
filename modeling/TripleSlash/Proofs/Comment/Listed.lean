import TripleSlash.Comment.Pending

/-! The comment of a declaration with all its parameters, those of its own line and those of the
lines below. What waits for the lines below is on its way to that comment. -/
namespace TripleSlash

/-- The parameters that lines add to a list that is open in front of them. Each line is read by
itself. -/
def Parameter.listedFrom : Nat → List Text → List Parameter
  | _, [] => []
  | depth, line :: lines =>
    parseList (Parens.inside depth line) ++ listedFrom (Parens.depthAfter depth line) lines

/-- The parameters that the lines below add to those of a declaration. -/
def Declaration.listedBelow (d : Declaration) (below : List Text) : List Parameter :=
  Parameter.listedFrom (Parens.depthAfter Parens.opened d.rawParameters) below

/-- The parameters of a declaration and of the lines below it. -/
def Declaration.listed (d : Declaration) (below : List Text) : List Parameter :=
  Parameter.parseList d.rawParameters ++ d.listedBelow below

variable {ts : Templates} {lb : Text} {d : Declaration} {below : List Text}

theorem Parameter.listedFrom_concat (n : Nat) (lines : List Text) (line : Text) :
    listedFrom n (lines ++ [line]) =
      listedFrom n lines ++ parseList (Parens.inside (lines.foldl Parens.depthAfter n) line) := by
  induction lines generalizing n with
  | nil => simp [listedFrom]
  | cons first lines ih => simp [listedFrom, ih]

namespace Comment

/-- The entries of some parameters. -/
def entries (ts : Templates) (nl : Text) (ps : List Parameter) : Text :=
  ps.flatMap (parameterEntry ts nl)

/-- The comment of a declaration whose parameters go on in the lines below, if they do. -/
def complete? (ts : Templates) (lineBreak : Text) (d : Declaration) (below : List Text) :
    Option Text :=
  (render? ts lineBreak d).map fun head =>
    if d.isOpen then
      Text.replaceFirst marker (entries ts (newline lineBreak d.indent) (d.listedBelow below)) head
    else head

namespace Pending

variable {p : Pending} {head : Text}

/-- A comment that waits behind a declaration and some lines below it. -/
structure Behind (ts : Templates) (lineBreak : Text) (d : Declaration) (below : List Text)
    (p : Pending) : Prop where
  head : render? ts lineBreak d = some p.head
  newline : p.newline = Comment.newline lineBreak d.indent
  entries : p.entries = Comment.entries ts p.newline (d.listedBelow below)
  depth : p.depth = below.foldl Parens.depthAfter (Parens.depthAfter Parens.opened d.rawParameters)

theorem behind_start (h : render? ts lb d = some head) (a b : Nat) :
    Behind ts lb d [] (start a b head d.rawParameters (Comment.newline lb d.indent)) :=
  ⟨h, rfl, rfl, rfl⟩

theorem behind_accept (h : Behind ts lb d below p) (line : Text) :
    Behind ts lb d (below ++ [line]) (p.accept ts line) where
  head := h.head
  newline := h.newline
  entries := by
    have hbelow : d.listedBelow (below ++ [line]) =
        d.listedBelow below ++ Parameter.parseList (Parens.inside p.depth line) := by
      rw [h.depth]
      exact Parameter.listedFrom_concat _ below line
    rw [hbelow, Comment.entries, List.flatMap_append]
    exact congrArg (· ++ _) h.entries
  depth := by
    rw [List.foldl_append, ← h.depth]
    rfl

/-- With its last line a comment that has waited is complete. -/
theorem Behind.complete? (h : Behind ts lb d below p) (ho : d.isOpen = true) :
    Comment.complete? ts lb d below = some p.assembled := by
  rw [Comment.complete?, h.head, Option.map_some, if_pos ho, assembled, h.entries, h.newline]

end Pending

/-- A declaration with all its parameters has nothing to wait for. -/
theorem complete?_of_whole (ho : d.isOpen = false) (below : List Text) :
    complete? ts lb d below = render? ts lb d := by
  simp [complete?, ho]

end Comment
end TripleSlash
