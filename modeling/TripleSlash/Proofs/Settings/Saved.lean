import TripleSlash.CommandLine.Run
import TripleSlash.Proofs.Files.Stored
import TripleSlash.Proofs.Settings.Keys

/-! Settings that are saved are the settings that are read again, whatever the templates hold. Files
may leave out keys, and no file may have other keys. -/
namespace TripleSlash.Settings

open Toml (Entries Field Section Sheet Scalar Value)

variable {s t : Settings} {es : Entries} {source source' : Text} {removed : List (List Text)}

/-! The saved file -/

def Part.bare (part : Part) : Stretch1 Toml.isBareKey :=
  ⟨⟨part.key, List.all_eq_true.mp (by cases part <;> decide)⟩, by cases part <;> decide⟩

/-- The key on the line of a setting. -/
def Key.bare : Key → Stretch1 Toml.isBareKey
  | .access a => ⟨⟨a.key, List.all_eq_true.mp (by cases a <;> decide)⟩, by cases a <;> decide⟩
  | .template slot =>
    ⟨⟨slot.key, List.all_eq_true.mp (by cases slot <;> decide)⟩, by cases slot <;> decide⟩
  | k => k.part.bare

/-- The line of a setting. -/
def field (s : Settings) (k : Key) : Field := ⟨k.bare, s.value k⟩

/-- The document with every key. -/
def saved (s : Settings) : Sheet where
  fields := [s.field .runOnSave, s.field .saveMode, s.field .lineEnding]
  sections := [⟨Part.access.bare, Access.all.map fun a => s.field (.access a)⟩,
    ⟨Part.templates.bare, Templates.Slot.all.map fun slot => s.field (.template slot)⟩]
  nodup := by
    change [Part.runOnSave.key, Part.saveMode.key, Part.lineEnding.key, Part.access.key,
      Part.templates.key].Nodup
    decide
  nodup_fields := by
    intro section' hs
    simp only [List.mem_cons, List.not_mem_nil, or_false] at hs
    rcases hs with rfl | rfl
    · rw [List.map_map]
      change (Access.all.map Access.key).Nodup
      decide
    · rw [List.map_map]
      change (Templates.Slot.all.map Templates.Slot.key).Nodup
      decide

theorem text_saved (s : Settings) : (saved s).text = s.write := by
  rw [Sheet.text_eq]
  simp only [saved, write, List.flatMap_cons, List.flatMap_nil, List.flatMap_map, List.append_nil,
    List.append_assoc]
  rfl

theorem entries_saved (s : Settings) : (saved s).entries =
    [(Part.runOnSave.key, .boolean s.runOnSave), (Part.saveMode.key, .string s.saveMode.key),
      (Part.lineEnding.key, .string s.lineEnding.key),
      (Part.access.key, .table .header
        (Access.all.map fun a => (a.key, .boolean (s.access.contains a)))),
      (Part.templates.key, .table .header
        (Templates.Slot.all.map fun slot => (slot.key, .string (s.templates.template slot))))] :=
  rfl

theorem ofEntries?_saved (s : Settings) : ofEntries? (saved s).entries = some s := by
  have haccess : access? (.table .header
      (Access.all.map fun a => (a.key, .boolean (s.access.contains a)))) = some s.access :=
    switches.read?_names fun _ => rfl
  have htemplates : templates? (.table .header (Templates.Slot.all.map fun slot =>
      (slot.key, .string (s.templates.template slot)))) = some s.templates :=
    slots.read?_names fun _ => rfl
  have hrun : ∀ t : Settings, t.set? Part.runOnSave.key (.boolean s.runOnSave) =
      some { t with runOnSave := s.runOnSave } := fun t => (Made.runOnSave rfl).set?
  have hmode : ∀ t : Settings, t.set? Part.saveMode.key (.string s.saveMode.key) =
      some { t with saveMode := s.saveMode } := fun t => (Made.saveMode (mode?_key _)).set?
  rw [ofEntries?, entries_saved]
  simp only [List.foldlM_cons, hrun, hmode, (Made.lineEnding (lineEnding?_key _)).set?,
    (Made.access haccess).set?, (Made.templates htemplates).set?]
  rfl

theorem read?_write (s : Settings) : read? s.write = some s := by
  rw [read?, ← text_saved, Sheet.read?_text, Option.bind_some, ofEntries?_saved]

/-! Files that leave out keys, and files that have others -/

theorem read?_of_without (hes : Toml.read? source = some es) (hs : read? source = some s)
    (hremoved : removed ⊆ keyPaths es) (hes' : Toml.read? source' = some (es.without removed)) :
    ∃ s', read? source' = some s' ∧ Reset removed s s' := by
  have hn : es.keys.Nodup := Entries.nodup_read? hes
  rw [read?, hes, Option.bind_some] at hs
  obtain ⟨s', hs', hreset⟩ := ofEntries?_without hs hn hremoved
  exact ⟨s', by rw [read?, hes', Option.bind_some, hs'], hreset⟩

theorem read?_of_unknown {path : List Text} (hes : Toml.read? source = some es)
    (hpath : path ∈ keyPaths es) (hknown : ¬ IsKnown path) : read? source = none := by
  rw [read?, hes, Option.bind_some, Option.eq_none_iff_forall_ne_some]
  intro s hs
  exact hknown (known_of_ofEntries? hs path hpath)

/-- Settings survive saving. Keys that are removed from a file have their default values, and all
others are unchanged. A file with a key that is none of the settings cannot be read. -/
theorem read?_saved :
    (∀ s : Settings, read? s.write = some s ∧ ∀ (d d' : Disk) (p : Text),
      d.write? p s.write = some d' → CommandLine.readSettings d' p = .ok s) ∧
    (∀ (source source' : Text) (es : Entries) (s : Settings) (removed : List (List Text)),
      Toml.read? source = some es → read? source = some s → removed ⊆ keyPaths es →
      Toml.read? source' = some (es.without removed) →
      ∃ s', read? source' = some s' ∧ Reset removed s s') ∧
    (∀ (x : Sheet) (s : Settings) (removed : List (List Text)),
      read? x.text = some s → removed ⊆ keyPaths x.entries →
      ∃ s', read? (x.without removed).text = some s' ∧ Reset removed s s') ∧
    (∀ (source : Text) (es : Entries) (path : List Text), Toml.read? source = some es →
      path ∈ keyPaths es → ¬ IsKnown path → read? source = none ∧ ∀ (d : Disk) (p : Text),
        d.read p = .ok source → CommandLine.readSettings d p = .error (.settingsMalformed p)) := by
  refine ⟨fun s => ⟨read?_write s, fun d d' p hd => ?_⟩, ?_, ?_, ?_⟩
  · rw [CommandLine.readSettings, Disk.read_of_write? hd]
    simp only [read?_write]
  · intro source source' es s removed hes hs hremoved hes'
    exact read?_of_without hes hs hremoved hes'
  · intro x s removed hs hremoved
    refine read?_of_without x.read?_text hs hremoved ?_
    rw [Sheet.read?_text, Sheet.entries_without]
  · intro source es path hes hpath hknown
    have hnone := read?_of_unknown hes hpath hknown
    refine ⟨hnone, fun d p hd => ?_⟩
    rw [CommandLine.readSettings, hd]
    simp only [hnone]

/-- Settings with a template that is hard to quote. -/
def quoting : Settings :=
  { default with
    lineEnding := .crlf
    access := AccessSet.visible.put .priv true
    templates := Templates.stock.put .type "'''\"\"\"\\\r\n\t\x01" }

/-- A key that is none. -/
def misspeltKey : Stretch1 Toml.isBareKey := .of "privat" (by decide)

/-- A file with it. -/
def misspelt : Sheet where
  fields := []
  sections := [⟨Part.access.bare, [⟨misspeltKey, .boolean true⟩]⟩]
  nodup := by decide
  nodup_fields := by simp

/-- The settings survive on a disk that was empty, and so do those that are left without the line
endings, a switch and the templates. -/
theorem read?_saved_quoting :
    (∃ d', Disk.write? ⟨[], []⟩ CommandLine.defaultConfig quoting.write = some d' ∧
      CommandLine.readSettings d' CommandLine.defaultConfig = .ok quoting) ∧
    (∃ s, read? ((saved quoting).without
        [[Part.lineEnding.key], Key.path (.access .priv), [Part.templates.key]]).text = some s ∧
      Reset [[Part.lineEnding.key], Key.path (.access .priv), [Part.templates.key]] quoting s) ∧
    misspelt.text = "\n[access]\nprivat = true\n" ∧ read? misspelt.text = none := by
  obtain ⟨hsaved, -, hsheet, hunknown⟩ := read?_saved
  have hplace : Disk.place? ⟨[], []⟩ CommandLine.defaultConfig =
      some [CommandLine.defaultConfig] := by decide +kernel
  have hwrite : Disk.write? ⟨[], []⟩ CommandLine.defaultConfig quoting.write =
      some (Disk.put ⟨[], []⟩ [CommandLine.defaultConfig] (.text quoting.write)) := by
    rw [Disk.write?, hplace, Option.map_some]
  refine ⟨⟨_, hwrite, (hsaved quoting).2 _ _ _ hwrite⟩, ?_, by decide +kernel, ?_⟩
  · refine hsheet (saved quoting) quoting _ ?_ (by decide +kernel)
    rw [text_saved, (hsaved quoting).1]
  · refine (hunknown _ misspelt.entries [Part.access.key, "privat"] misspelt.read?_text
      (by decide +kernel) ?_).1
    rintro (⟨part, h⟩ | ⟨k, h⟩)
    · cases part <;> exact absurd h (by decide)
    · cases k with
      | access a => cases a <;> exact absurd h (by decide)
      | template slot => cases slot <;> exact absurd h (by decide)
      | _ => exact absurd h (by decide)

end TripleSlash.Settings
