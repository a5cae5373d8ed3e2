import TripleSlash.Proofs.Toml.Quoted
import TripleSlash.Settings.File

/-! Documents that are written line by line: each line is read as the statement that it makes. -/
namespace TripleSlash.Toml

open Settings (writeLine writeHeader writeBool)

variable {key x y : Text} {c : Char} {n : Nat}

/-- A value that is written on one line. -/
inductive Scalar where
  | string (t : Text)
  | boolean (b : Bool)

namespace Scalar

def value : Scalar → Value
  | string t => .string t
  | boolean b => .boolean b

def text : Scalar → Text
  | string t => Quoted.write t
  | boolean b => writeBool b

end Scalar

/-- A line that names a table or makes one setting. -/
inductive Row where
  | header (name : Stretch1 isBareKey)
  | value (key : Stretch1 isBareKey) (v : Scalar)

namespace Row

def statement : Row → Statement
  | header name => .header [name.text]
  | value key v => .value [key.text] v.value

def text : Row → Text
  | header name => writeHeader name.text
  | value key v => writeLine key.text v.text

end Row

/-! Keys -/

theorem readKeyPart_bare (key : Stretch1 isBareKey) (hy : Text.Stops isBareKey y) :
    readKeyPart (key.text ++ y) = some (key.text, y) := by
  have hshort : Quoted.readShort? (key.text ++ y) = none := by
    have hdouble := key.stops_ne (d := '"') rfl y
    have hsingle := key.stops_ne (d := '\'') rfl y
    unfold Quoted.readShort?
    split
    next h => simp [h] at hdouble
    next h => simp [h] at hsingle
    next => rfl
  simp [readKeyPart, hshort, Text.takeWhile_stretch key.all hy, Text.dropWhile_stretch key.all hy,
    key.ne]

theorem skipBlank_bare (key : Stretch1 isBareKey) (y : Text) :
    skipBlank (key.text ++ y) = key.text ++ y := by
  refine Text.dropWhile_of_stops (key.stops (fun c hc => ?_) y)
  simp [isLineBlank, beq_eq_false_of_class hc (d := ' ') rfl,
    beq_eq_false_of_class hc (d := '\t') rfl]

theorem readKey_bare (key : Stretch1 isBareKey) (hy : Text.Stops isBareKey y)
    (hdot : Text.Stops (· == '.') (skipBlank y)) :
    readKey keyLimit (key.text ++ y) = some ([key.text], skipBlank y) := by
  rw [keyLimit, readKey, skipBlank_bare, readKeyPart_bare key hy]
  simp only [Option.bind_eq_bind, Option.bind_some]
  split
  next h => simp [h] at hdot
  next => rfl

/-! Values -/

theorem readScalar_text (v : Scalar) (t : Text) :
    readScalar (v.text ++ '\n' :: t) = some (v.value, '\n' :: t) := by
  cases v with
  | string s =>
    have hread : Quoted.read? (Quoted.write s ++ '\n' :: t) = some (s, '\n' :: t) :=
      Quoted.read?_write s (Text.stops_cons.mpr rfl)
    simp [readScalar, Scalar.text, Scalar.value, hread]
  | boolean b => cases b <;> rfl

/-- What the text of a value begins with. -/
def beginsScalar (c : Char) : Bool := "\"'tf".toList.contains c

theorem write_begins (s : Text) : ∃ c t, Quoted.write s = c :: t ∧ beginsScalar c = true := by
  unfold Quoted.write
  dsimp only
  split
  · exact ⟨'"', _, rfl, rfl⟩
  · split
    · exact ⟨'\'', _, rfl, rfl⟩
    · split
      · exact ⟨'"', _, rfl, rfl⟩
      · split
        · exact ⟨'\'', _, rfl, rfl⟩
        · split
          · exact ⟨'"', _, rfl, rfl⟩
          · exact ⟨'"', _, rfl, rfl⟩

theorem scalar_begins (v : Scalar) : ∃ c t, v.text = c :: t ∧ beginsScalar c = true := by
  cases v with
  | string s => exact write_begins s
  | boolean b =>
    cases b with
    | true => exact ⟨'t', _, rfl, rfl⟩
    | false => exact ⟨'f', _, rfl, rfl⟩

theorem readValue_text (v : Scalar) (n depth : Nat) (t : Text) :
    readValue n depth (v.text ++ '\n' :: t) = some (v.value, '\n' :: t) := by
  have hscalar := readScalar_text v t
  obtain ⟨c, w, hw, hc⟩ := scalar_begins v
  rw [hw] at hscalar ⊢
  rw [readValue.eq_3 _ _ _ ?_ ?_, hscalar]
  · rintro _ _ _ - - h
    obtain rfl := (List.cons.inj h).1
    simp [beginsScalar] at hc
  · rintro _ _ _ - - h
    obtain rfl := (List.cons.inj h).1
    simp [beginsScalar] at hc

theorem skipBlank_text (v : Scalar) (t : Text) : skipBlank (v.text ++ t) = v.text ++ t := by
  obtain ⟨c, w, hw, hc⟩ := scalar_begins v
  have hblank : isLineBlank c = false := by
    have hall : ∀ d ∈ "\"'tf".toList, isLineBlank d = false := by simp [isLineBlank]
    exact hall c (by simpa [beginsScalar] using hc)
  rw [hw]
  exact Text.dropWhile_of_stops (Text.stops_cons.mpr hblank)

/-! Lines -/

theorem readStatement_value (key : Stretch1 isBareKey) (v : Scalar) (t : Text) :
    readStatement (writeLine key.text v.text ++ t) =
      some (.value [key.text] v.value, '\n' :: t) := by
  have hline : writeLine key.text v.text ++ t =
      key.text ++ (' ' :: '=' :: ' ' :: (v.text ++ '\n' :: t)) := by
    simp [writeLine]
  have hkey : readKey keyLimit (key.text ++ (' ' :: '=' :: ' ' :: (v.text ++ '\n' :: t))) =
      some ([key.text], '=' :: ' ' :: (v.text ++ '\n' :: t)) :=
    readKey_bare key (Text.stops_cons.mpr rfl) (Text.stops_cons.mpr rfl)
  have hblank : skipBlank (' ' :: (v.text ++ '\n' :: t)) = v.text ++ '\n' :: t :=
    skipBlank_text v _
  rw [hline]
  unfold readStatement
  split
  next h =>
    have hstops := key.stops_ne (d := '[') rfl (' ' :: '=' :: ' ' :: (v.text ++ '\n' :: t))
    simp [h] at hstops
  next => simp [hkey, hblank, readValue_text]

theorem readStatement_header (name : Stretch1 isBareKey) (t : Text) :
    readStatement ('[' :: (name.text ++ ']' :: t)) = some (.header [name.text], t) := by
  have hkey : readKey keyLimit (name.text ++ ']' :: t) = some ([name.text], ']' :: t) :=
    readKey_bare name (Text.stops_cons.mpr rfl) (Text.stops_cons.mpr rfl)
  simp [readStatement, hkey]

@[simp] theorem endLine?_feed (t : Text) : endLine? ('\n' :: t) = some t := rfl

/-- A line that begins with a bare key says something. -/
theorem endLine?_bare (key : Stretch1 isBareKey) (y : Text) : endLine? (key.text ++ y) = none := by
  have hcomment := key.stops_ne (d := '#') rfl y
  have hfeed := key.stops_ne (d := '\n') rfl y
  have hreturn := key.stops_ne (d := '\r') rfl y
  rw [endLine?, skipBlank_bare]
  cases h : key.text ++ y with
  | nil => simp [key.ne] at h
  | cons c t =>
    rw [h, Text.stops_cons, beq_eq_false_iff_ne] at hcomment hfeed hreturn
    simp [skipComment, afterBreak?, hcomment, hfeed, hreturn]

/-- A statement is read, and with it the rest of its line. -/
theorem readStatements_cons {s : Statement} (hx : x ≠ []) (hend : endLine? x = none)
    (hs : readStatement (skipBlank x) = some (s, '\n' :: y)) (n : Nat) :
    readStatements (n + 1) x = (readStatements n y).map (s :: ·) := by
  rw [readStatements.eq_3 _ _ hx, hend]
  simp only [hs, Option.bind_eq_bind, Option.bind_some, endLine?_feed]
  cases readStatements n y <;> rfl

theorem readStatements_value (key : Stretch1 isBareKey) (v : Scalar) (n : Nat) (t : Text) :
    readStatements (n + 1) (writeLine key.text v.text ++ t) =
      (readStatements n t).map (.value [key.text] v.value :: ·) := by
  have hline : writeLine key.text v.text ++ t =
      key.text ++ (" = ".toList ++ v.text ++ '\n' :: t) := by
    simp [writeLine]
  have hs : readStatement (skipBlank (writeLine key.text v.text ++ t)) =
      some (.value [key.text] v.value, '\n' :: t) := by
    rw [hline, skipBlank_bare, ← hline, readStatement_value]
  exact readStatements_cons (by simp [hline, key.ne]) (hline ▸ endLine?_bare key _) hs n

/-- A header stands below an empty line. -/
theorem readStatements_header (name : Stretch1 isBareKey) (n : Nat) (t : Text) :
    readStatements (n + 2) (writeHeader name.text ++ t) =
      (readStatements n t).map (.header [name.text] :: ·) := by
  have hheader : writeHeader name.text ++ t =
      '\n' :: '[' :: (name.text ++ ']' :: '\n' :: t) := by
    simp [writeHeader]
  have hs : readStatement (skipBlank ('[' :: (name.text ++ ']' :: '\n' :: t))) =
      some (.header [name.text], '\n' :: t) := readStatement_header name _
  rw [hheader, readStatements.eq_3 _ _ (List.cons_ne_nil _ _), endLine?_feed]
  exact readStatements_cons (List.cons_ne_nil _ _) rfl hs n

namespace Row

/-- The statements of a document that is written line by line. -/
theorem readStatements_flatMap (rows : List Row) (h : (rows.flatMap text).length ≤ n) :
    readStatements n (rows.flatMap text) = some (rows.map statement) := by
  induction rows generalizing n with
  | nil => cases n <;> rfl
  | cons r rows ih =>
    rw [List.flatMap_cons, List.length_append] at h
    cases r with
    | value key v =>
      have hlen : 1 ≤ (text (value key v)).length := by
        simp only [text, writeLine, List.length_append, List.length_singleton]
        omega
      obtain ⟨m, rfl⟩ : ∃ m, n = m + 1 := ⟨n - 1, by omega⟩
      have hm : (rows.flatMap text).length ≤ m := by omega
      rw [List.flatMap_cons, text, readStatements_value, ih hm]
      rfl
    | header name =>
      have hlen : 2 ≤ (text (header name)).length := by simp [text, writeHeader]
      obtain ⟨m, rfl⟩ : ∃ m, n = m + 2 := ⟨n - 2, by omega⟩
      have hm : (rows.flatMap text).length ≤ m := by omega
      rw [List.flatMap_cons, text, readStatements_header, ih hm]
      rfl

/-- No line begins with the mark of a byte order. -/
theorem stops_mark (rows : List Row) : Text.Stops (· == '\uFEFF') (rows.flatMap text) := by
  cases rows with
  | nil => exact Text.stops_nil
  | cons r rows =>
    cases r with
    | value key v =>
      rw [List.flatMap_cons, text, writeLine, List.append_assoc, List.append_assoc,
        List.append_assoc]
      exact key.stops_ne rfl _
    | header name => exact Text.stops_cons.mpr rfl

theorem read?_flatMap (rows : List Row) :
    read? (rows.flatMap text) = Entries.ofStatements? (rows.map statement) := by
  have hmark := stops_mark rows
  unfold read?
  split
  next h => simp [h] at hmark
  next =>
    dsimp only
    rw [readStatements_flatMap rows (Nat.le_refl _), Option.bind_some]

end Row
end TripleSlash.Toml
