import Mathlib.Data.List.Nodup
import TripleSlash.Proofs.Settings.Groups
import TripleSlash.Proofs.Toml.Sheet

/-! The keys of settings files: which there are, and what it means for the settings that some of
them are missing. -/
namespace TripleSlash.Settings

open Toml (Value Entries Scalar)

/-- What has a key outside the tables of settings. -/
inductive Part where
  | runOnSave
  | saveMode
  | lineEnding
  | access
  | templates

def Part.key : Part → Text
  | runOnSave => "run_on_save"
  | saveMode => "run_on_save_command"
  | lineEnding => "line_ending"
  | access => "access"
  | templates => "templates"

/-- What is set by a key of its own: a part that is no table, a switch or a template. -/
inductive Key where
  | runOnSave
  | saveMode
  | lineEnding
  | access (a : Access)
  | template (slot : Templates.Slot)

namespace Key

/-- The part of the settings that a key belongs to. -/
def part : Key → Part
  | runOnSave => .runOnSave
  | saveMode => .saveMode
  | lineEnding => .lineEnding
  | access _ => .access
  | template _ => .templates

/-- The keys on the way to a setting. -/
def path : Key → List Text
  | access a => [Part.access.key, a.key]
  | template slot => [Part.templates.key, slot.key]
  | k => [k.part.key]

/-- Whether a key is one of some keys, by itself or with its table. -/
def Among (paths : List (List Text)) (k : Key) : Prop := [k.part.key] ∈ paths ∨ k.path ∈ paths

instance (paths : List (List Text)) (k : Key) : Decidable (k.Among paths) :=
  inferInstanceAs (Decidable (_ ∨ _))

end Key

/-- Whether a path leads to a setting or to one of the tables. -/
def IsKnown (path : List Text) : Prop :=
  (∃ part : Part, path = [part.key]) ∨ ∃ k : Key, path = k.path

/-- The tables of settings. -/
def tables : List Text := [Part.access.key, Part.templates.key]

/-- The keys of a document, outside and inside of the tables. -/
def keyPaths (es : Entries) : List (List Text) :=
  es.flatMap fun e => [e.1] :: match e with
    | (key, .table _ sub) =>
      if tables.contains key then (Entries.keys sub).map ([key, ·]) else []
    | _ => []

/-- What a key is set to, as it is written. -/
def value (s : Settings) : Key → Scalar
  | .runOnSave => .boolean s.runOnSave
  | .saveMode => .string s.saveMode.key
  | .lineEnding => .string s.lineEnding.key
  | .access a => .boolean (s.access.contains a)
  | .template slot => .string (s.templates.template slot)

/-- Whether the settings `s'` are the default ones for the removed keys and those of `s` for all
others. -/
def Reset (removed : List (List Text)) (s s' : Settings) : Prop :=
  ∀ k, s'.value k = if k.Among removed then default.value k else s.value k

variable {s s' t : Settings} {k : Key} {key : Text} {v : Value} {es : Entries}
  {removed : List (List Text)}

theorem mode?_key (mode : Mode) : mode? (.string mode.key) = some mode := by
  cases mode <;> rfl

theorem lineEnding?_key (ending : LineEnding) : lineEnding? (.string ending.key) = some ending := by
  cases ending <;> rfl

/-- Whether keys are removed from within an entry only if it is one of the tables. -/
def Inner (removed : List (List Text)) (e : Text × Value) : Prop :=
  ∀ k, [e.1, k] ∈ removed → e.1 ∈ tables ∧ ∃ kind sub, e.2 = .table kind sub

/-! One part -/

/-- What the entry of a part makes of the settings. -/
inductive Made (s : Settings) (v : Value) : Part → Settings → Prop where
  | runOnSave {b : Bool} (h : boolean? v = some b) :
      Made s v .runOnSave { s with runOnSave := b }
  | saveMode {mode : Mode} (h : mode? v = some mode) :
      Made s v .saveMode { s with saveMode := mode }
  | lineEnding {ending : LineEnding} (h : lineEnding? v = some ending) :
      Made s v .lineEnding { s with lineEnding := ending }
  | access {set : AccessSet} (h : access? v = some set) :
      Made s v .access { s with access := set }
  | templates {ts : Templates} (h : templates? v = some ts) :
      Made s v .templates { s with templates := ts }

theorem made_of_set? (h : s.set? key v = some t) :
    ∃ part : Part, key = part.key ∧ Made s v part t := by
  unfold set? at h
  split at h
  next hkey =>
    obtain ⟨b, hb, rfl⟩ := Option.map_eq_some_iff.mp h
    exact ⟨.runOnSave, hkey, .runOnSave hb⟩
  · split at h
    next hkey =>
      obtain ⟨mode, hmode, rfl⟩ := Option.map_eq_some_iff.mp h
      exact ⟨.saveMode, hkey, .saveMode hmode⟩
    · split at h
      next hkey =>
        obtain ⟨ending, hending, rfl⟩ := Option.map_eq_some_iff.mp h
        exact ⟨.lineEnding, hkey, .lineEnding hending⟩
      · split at h
        next hkey =>
          obtain ⟨set, hset, rfl⟩ := Option.map_eq_some_iff.mp h
          exact ⟨.access, hkey, .access hset⟩
        · split at h
          next hkey =>
            obtain ⟨ts, hts, rfl⟩ := Option.map_eq_some_iff.mp h
            exact ⟨.templates, hkey, .templates hts⟩
          · simp at h

namespace Made

variable {part : Part} {v' : Value}

theorem set? (h : Made s v part t) : s.set? part.key v = some t := by
  cases h with
  | runOnSave h => exact congrArg (Option.map _) h
  | saveMode h => exact congrArg (Option.map _) h
  | lineEnding h => exact congrArg (Option.map _) h
  | access h => exact congrArg (Option.map _) h
  | templates h => exact congrArg (Option.map _) h

/-- The settings of other parts stay as they are. -/
theorem value_of_ne (h : Made s v part t) (hk : k.part ≠ part) : t.value k = s.value k := by
  cases h <;> cases k <;> first | rfl | exact absurd rfl hk

/-- An entry that is removed leaves its part at the default. -/
theorem reset_of_removed (h : Made s v part t) (hr : Reset removed s s')
    (hpart : [part.key] ∈ removed) : Reset removed t s' := by
  intro k
  rw [hr k]
  by_cases hk : k.Among removed
  · rw [if_pos hk, if_pos hk]
  · have hne : k.part ≠ part := by
      rintro rfl
      exact hk (.inl hpart)
    rw [if_neg hk, if_neg hk, h.value_of_ne hne]

/-- Only the keys of the part are to be looked at where the same part is made on both sides. -/
theorem reset_of_own (h : Made s v part t) (h' : Made s' v' part t') (hr : Reset removed s s')
    (hpart : [part.key] ∉ removed) (hown : ∀ k : Key, k.part = part → t'.value k =
      if !removed.contains k.path then t.value k else default.value k) : Reset removed t t' := by
  intro k
  by_cases hk : k.part = part
  · by_cases hpath : k.path ∈ removed
    · rw [hown k hk, if_neg (by simpa using hpath), if_pos (.inr hpath)]
    · have hamong : ¬ k.Among removed := by
        rintro (hkey | hkey)
        · exact hpart (hk ▸ hkey)
        · exact hpath hkey
      rw [hown k hk, if_pos (by simpa using hpath), if_neg hamong]
  · rw [h'.value_of_ne hk, h.value_of_ne hk]
    exact hr k

/-- An entry that is kept has what is left of its value. -/
theorem reset_of_kept (h : Made s v part t) (hr : Reset removed s s') (hpart : [part.key] ∉ removed)
    (hv : Inner removed (part.key, v)) :
    ∃ t', Made s' (v.keep (!removed.contains [part.key, ·])) part t' ∧ Reset removed t t' := by
  have hwhole : part.key ∉ tables → v.keep (!removed.contains [part.key, ·]) = v := by
    intro htables
    refine Value.keep_of_forall (fun k => ?_) v
    by_contra hk
    exact htables (hv k (by simpa using hk)).1
  have hinner : (∀ k, (!removed.contains [part.key, k]) = true) ∨
      ∃ kind es, v = .table kind es := by
    by_cases hall : ∀ k, [part.key, k] ∉ removed
    · exact .inl fun k => by simpa using hall k
    · obtain ⟨k, hk⟩ := not_forall.mp hall
      exact .inr (hv k (not_not.mp hk)).2
  have hstays : (!removed.contains [part.key]) = true := by simpa using hpart
  cases h with
  | runOnSave h =>
    rw [hwhole (by decide)]
    refine ⟨_, .runOnSave h, reset_of_own (.runOnSave h) (.runOnSave h) hr hpart fun k hk => ?_⟩
    cases k with
    | runOnSave => exact (if_pos hstays).symm
    | _ => cases hk
  | saveMode h =>
    rw [hwhole (by decide)]
    refine ⟨_, .saveMode h, reset_of_own (.saveMode h) (.saveMode h) hr hpart fun k hk => ?_⟩
    cases k with
    | saveMode => exact (if_pos hstays).symm
    | _ => cases hk
  | lineEnding h =>
    rw [hwhole (by decide)]
    refine ⟨_, .lineEnding h, reset_of_own (.lineEnding h) (.lineEnding h) hr hpart fun k hk => ?_⟩
    cases k with
    | lineEnding => exact (if_pos hstays).symm
    | _ => cases hk
  | access h =>
    obtain ⟨set', hset', hkept⟩ := switches.read?_keep h hinner
    refine ⟨_, .access hset', reset_of_own (.access h) (.access hset') hr hpart fun k hk => ?_⟩
    cases k with
    | access a => exact (congrArg Scalar.boolean (hkept a)).trans (apply_ite _ _ _ _)
    | _ => cases hk
  | templates h =>
    obtain ⟨ts', hts', hkept⟩ := slots.read?_keep h hinner
    refine ⟨_, .templates hts',
      reset_of_own (.templates h) (.templates hts') hr hpart fun k hk => ?_⟩
    cases k with
    | template slot => exact (congrArg Scalar.string (hkept slot)).trans (apply_ite _ _ _ _)
    | _ => cases hk

end Made

/-! Documents -/

theorem mem_keyPaths {path : List Text} : path ∈ keyPaths es ↔ ∃ e ∈ es, path = [e.1] ∨
    e.1 ∈ tables ∧ ∃ kind sub k, e.2 = .table kind sub ∧ k ∈ Entries.keys sub ∧
      path = [e.1, k] := by
  rw [keyPaths, List.mem_flatMap]
  refine exists_congr fun e => and_congr_right fun _ => ?_
  rw [List.mem_cons]
  refine or_congr_right ?_
  obtain ⟨key, v⟩ := e
  cases v with
  | table kind sub =>
    by_cases hkey : key ∈ tables
    · simp [hkey, eq_comm]
    · simp [hkey]
  | _ => simp

theorem exists_made (h : es.foldlM (fun s e => s.set? e.1 e.2) s = some t) :
    ∀ e ∈ es, ∃ (part : Part) (s t : Settings), e.1 = part.key ∧ Made s e.2 part t := by
  induction es generalizing s with
  | nil => simp
  | cons e es ih =>
    rw [List.foldlM_cons] at h
    obtain ⟨next, he, hes⟩ := Option.bind_eq_some_iff.mp h
    obtain ⟨part, hkey, hmade⟩ := made_of_set? he
    exact List.forall_mem_cons.mpr ⟨⟨part, s, next, hkey, hmade⟩, ih hes⟩

/-- A document that makes settings has no other keys than those of settings. -/
theorem known_of_ofEntries? (h : ofEntries? es = some t) : ∀ path ∈ keyPaths es, IsKnown path := by
  intro path hpath
  obtain ⟨e, he, hpath⟩ := mem_keyPaths.mp hpath
  obtain ⟨part, _, _, hkey, hmade⟩ := exists_made h e he
  rcases hpath with rfl | ⟨htables, kind, sub, k, hsub, hk, rfl⟩
  · exact .inl ⟨part, by rw [hkey]⟩
  · rw [hkey] at htables ⊢
    cases hmade with
    | access h =>
      rw [hsub] at h
      obtain ⟨a, rfl⟩ := switches.known_of_read? h k hk
      exact .inr ⟨.access a, rfl⟩
    | templates h =>
      rw [hsub] at h
      obtain ⟨slot, rfl⟩ := slots.known_of_read? h k hk
      exact .inr ⟨.template slot, rfl⟩
    | _ => exact absurd htables (by decide)

/-- Keys of a document are inner ones only within its tables. -/
theorem inner_of_keyPaths (hn : es.keys.Nodup) (hremoved : removed ⊆ keyPaths es) :
    ∀ e ∈ es, Inner removed e := by
  intro e he k hk
  obtain ⟨e', he', hpath | ⟨htables, kind, sub, k', hsub, -, hpath⟩⟩ :=
    mem_keyPaths.mp (hremoved hk)
  · simp at hpath
  · have hkey : e.1 = e'.1 := by simpa using (List.cons.inj hpath).1
    obtain rfl : e = e' := List.inj_on_of_nodup_map hn he he' hkey
    exact ⟨htables, kind, sub, hsub⟩

theorem foldlM_without (h : es.foldlM (fun s e => s.set? e.1 e.2) s = some t)
    (hes : ∀ e ∈ es, Inner removed e) (hr : Reset removed s s') :
    ∃ t', (Entries.without removed es).foldlM (fun s e => s.set? e.1 e.2) s' = some t' ∧
      Reset removed t t' := by
  induction es generalizing s s' with
  | nil =>
    obtain rfl := Option.some.inj h
    exact ⟨s', rfl, hr⟩
  | cons e es ih =>
    rw [List.forall_mem_cons] at hes
    rw [List.foldlM_cons] at h
    obtain ⟨next, he, hrest⟩ := Option.bind_eq_some_iff.mp h
    obtain ⟨part, hkey, hmade⟩ := made_of_set? he
    by_cases hpart : [part.key] ∈ removed
    · have hwithout : Entries.without removed (e :: es) = Entries.without removed es := by
        simp [Entries.without, Entries.keep, hkey, hpart]
      rw [hwithout]
      exact ih hrest hes.2 (hmade.reset_of_removed hr hpart)
    · have hwithout : Entries.without removed (e :: es) =
          (e.1, e.2.keep (!removed.contains [e.1, ·])) :: Entries.without removed es := by
        simp [Entries.without, Entries.keep, hkey, hpart]
      obtain ⟨next', hmade', hreset⟩ := hmade.reset_of_kept hr hpart (hkey ▸ hes.1)
      obtain ⟨t', ht', hreset'⟩ := ih hrest hes.2 hreset
      refine ⟨t', ?_, hreset'⟩
      rw [hwithout, List.foldlM_cons]
      simp only [hkey, hmade'.set?]
      exact ht'

/-- Without some of its keys, a document makes settings that are the default ones there. -/
theorem ofEntries?_without (h : ofEntries? es = some t) (hn : es.keys.Nodup)
    (hremoved : removed ⊆ keyPaths es) :
    ∃ t', ofEntries? (es.without removed) = some t' ∧ Reset removed t t' := by
  refine foldlM_without h (inner_of_keyPaths hn hremoved) fun k => ?_
  split <;> rfl

end TripleSlash.Settings
