import TripleSlash.Text.Basic

/-! Blank characters, and those of them that indent a line. -/
namespace TripleSlash

/-- White space: controls, spaces and separators, line breaks included. -/
def isBlank (c : Char) : Bool :=
  let n := c.toNat
  (0x9 ≤ n && n ≤ 0xD) || n == 0x20 || n == 0x85 || n == 0xA0 || n == 0x1680 ||
    (0x2000 ≤ n && n ≤ 0x200A) || n == 0x2028 || n == 0x2029 || n == 0x202F || n == 0x205F ||
    n == 0x3000

/-- A tab, form feed, vertical tab or space. -/
def isIndent (c : Char) : Bool := c == '\t' || c == '\x0c' || c == '\x0b' || c == ' '

theorem isBlank_of_isIndent {c : Char} (h : isIndent c) : isBlank c := by
  simp only [isIndent, Bool.or_eq_true, beq_iff_eq] at h
  rcases h with ((rfl | rfl) | rfl) | rfl <;> decide

end TripleSlash
