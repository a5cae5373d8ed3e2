/-! Texts as lists of characters, and the operations that cut and join them. -/
namespace TripleSlash

/-- A text is the list of its characters, so that each rule is a recursion on it. -/
abbrev Text := List Char

instance : Coe String Text := ⟨String.toList⟩

namespace Text

/-- Length of the UTF-8 encoding. -/
def byteSize : Text → Nat
  | [] => 0
  | c :: t => c.utf8Size + byteSize t

@[simp] theorem byteSize_nil : byteSize [] = 0 := rfl

@[simp] theorem byteSize_append (a b : Text) : byteSize (a ++ b) = byteSize a + byteSize b := by
  induction a with
  | nil => simp
  | cons c a ih => simp [byteSize, ih, Nat.add_assoc]

/-- Puts `new` for the first place where `old` occurs, and keeps the text if there is none. -/
def replaceFirst (old new : Text) : Text → Text
  | [] => if old.isEmpty then new else []
  | c :: t =>
    if old.isPrefixOf (c :: t) then new ++ (c :: t).drop old.length
    else c :: replaceFirst old new t

/-- Passes over `skip` characters, then cuts at every place where `sep` begins. -/
def splitOnFrom (sep : Text) : Nat → Text → List Text
  | _, [] => [[]]
  | skip + 1, _ :: t => splitOnFrom sep skip t
  | 0, c :: t =>
    if sep.isPrefixOf (c :: t) then [] :: splitOnFrom sep (sep.length - 1) t
    else (splitOnFrom sep 0 t).modifyHead (c :: ·)

/-- The pieces between the occurrences of `sep`, read from the left without overlap. -/
def splitOn (sep t : Text) : List Text := splitOnFrom sep 0 t

/-- The pieces between the characters that satisfy `p`. -/
def splitAtChars (p : Char → Bool) (t : Text) : List Text :=
  t.foldr (fun c pieces => if p c then [] :: pieces else pieces.modifyHead (c :: ·)) [[]]

/-- The pieces between the characters that satisfy `p`, empty pieces left out. -/
def fields (p : Char → Bool) (t : Text) : List Text :=
  (splitAtChars p t).filter (!·.isEmpty)

end Text
end TripleSlash
