import TripleSlash.Proofs.Toml.Lines
import TripleSlash.Proofs.Toml.Tables

/-! Documents that are laid out line by line: values first, and below them tables with headers. -/
namespace TripleSlash.Toml

/-- A bare key and the value that a line gives it. -/
structure Field where
  key : Stretch1 isBareKey
  value : Scalar

namespace Field

def entry (f : Field) : Text × Value := (f.key.text, f.value.value)

def row (f : Field) : Row := .value f.key f.value

end Field

/-- A table with a header. -/
structure Section where
  name : Stretch1 isBareKey
  fields : List Field

namespace Section

def table (s : Section) : Text × Entries := (s.name.text, s.fields.map Field.entry)

def rows (s : Section) : List Row := .header s.name :: s.fields.map Field.row

/-- The section with those of its fields whose keys are kept. -/
def keep (p : Text → Bool) (s : Section) : Section :=
  { s with fields := s.fields.filter (p ·.key.text) }

end Section

/-- A document in which no key stands twice. -/
structure Sheet where
  fields : List Field
  sections : List Section
  nodup : (fields.map (·.key.text) ++ sections.map (·.name.text)).Nodup
  nodup_fields : ∀ s ∈ sections, (s.fields.map (·.key.text)).Nodup

namespace Sheet

def rows (x : Sheet) : List Row := x.fields.map Field.row ++ x.sections.flatMap Section.rows

def text (x : Sheet) : Text := x.rows.flatMap Row.text

theorem text_eq (x : Sheet) : x.text =
    (x.fields.flatMap fun f => Settings.writeLine f.key.text f.value.text) ++
      x.sections.flatMap fun s => Settings.writeHeader s.name.text ++
        s.fields.flatMap fun f => Settings.writeLine f.key.text f.value.text := by
  have hfields : ∀ fs : List Field, (fs.map Field.row).flatMap Row.text =
      fs.flatMap fun f => Settings.writeLine f.key.text f.value.text := by
    intro fs
    rw [List.flatMap_map]
    rfl
  simp only [text, rows, List.flatMap_append, hfields, List.flatMap_assoc, Section.rows,
    List.flatMap_cons]
  rfl

def entries (x : Sheet) : Entries :=
  x.fields.map Field.entry ++ (x.sections.map Section.table).map Entries.ofTable

theorem statements_rows (x : Sheet) : x.rows.map Row.statement =
    Entries.values (x.fields.map Field.entry) ++
      (x.sections.map Section.table).flatMap Entries.headed := by
  have hfields : ∀ fs : List Field, (fs.map Field.row).map Row.statement =
      Entries.values (fs.map Field.entry) := by
    intro fs
    rw [Entries.values, List.map_map, List.map_map]
    rfl
  simp only [rows, List.map_append, hfields, List.map_flatMap, List.flatMap_map, Section.rows,
    List.map_cons]
  rfl

theorem keys_fields (fs : List Field) :
    Entries.keys (fs.map Field.entry) = fs.map (·.key.text) := by
  rw [Entries.keys, List.map_map]
  rfl

theorem keys_entries (x : Sheet) :
    x.entries.keys = x.fields.map (·.key.text) ++ x.sections.map (·.name.text) := by
  rw [entries, Entries.keys_append, keys_fields, Entries.keys, List.map_map, List.map_map]
  rfl

/-- A document that is laid out line by line is read back. -/
theorem read?_text (x : Sheet) : read? x.text = some x.entries := by
  rw [text, Row.read?_flatMap, statements_rows]
  refine Entries.ofStatements?_tables ?_ ?_
  · have hkeys := keys_entries x
    rw [entries] at hkeys
    exact hkeys ▸ x.nodup
  · intro t ht
    obtain ⟨s, hs, rfl⟩ := List.mem_map.mp ht
    have hkeys : s.table.2.keys = s.fields.map (·.key.text) := keys_fields s.fields
    exact hkeys ▸ x.nodup_fields s hs

/-! Lines that are taken out -/

/-- The document without the lines of some keys. -/
def without (removed : List (List Text)) (x : Sheet) : Sheet where
  fields := x.fields.filter (!removed.contains [·.key.text])
  sections := (x.sections.filter (!removed.contains [·.name.text])).map fun s =>
    s.keep (!removed.contains [s.name.text, ·])
  nodup := by
    have hnames : ∀ ss : List Section, (ss.map fun s =>
        s.keep (!removed.contains [s.name.text, ·])).map (·.name.text) = ss.map (·.name.text) := by
      intro ss
      rw [List.map_map]
      rfl
    rw [hnames]
    refine List.Sublist.nodup ?_ x.nodup
    exact (List.filter_sublist.map _).append (List.filter_sublist.map _)
  nodup_fields := by
    intro s hs
    obtain ⟨s', hs', rfl⟩ := List.mem_map.mp hs
    exact (x.nodup_fields s' (List.mem_filter.mp hs').1).sublist (List.filter_sublist.map _)

theorem scalar_keep (p : Text → Bool) (v : Scalar) : v.value.keep p = v.value := by
  cases v <;> rfl

theorem ofTable_keep (p : Text → Bool) (s : Section) :
    Entries.ofTable (s.keep p).table = (s.name.text, (Entries.ofTable s.table).2.keep p) := by
  simp only [Entries.ofTable, Section.table, Section.keep, Value.keep, Entries.keep,
    List.filter_map]
  rfl

theorem entries_without (removed : List (List Text)) (x : Sheet) :
    (x.without removed).entries = x.entries.without removed := by
  simp only [entries, without, Entries.without, Entries.keep, List.filter_append, List.map_append,
    List.filter_map, List.map_map]
  congr 1
  · refine List.map_congr_left fun f _ => ?_
    simp [Field.entry, scalar_keep]
  · refine List.map_congr_left fun s _ => ?_
    exact ofTable_keep _ s

end Sheet
end TripleSlash.Toml
