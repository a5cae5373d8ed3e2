import TripleSlash.Toml.Reader

/-! The tables that statements build. No key of the outermost table stands twice, and values come to
stand in the order in which they are made. -/
namespace TripleSlash.Toml

namespace Entries

variable {es es' sub rows : Entries} {key name : Text} {here path : List Text} {v : Value}
  {f : Entries → Option Entries} {state state' : List Text × Entries} {statements : List Statement}

def keys (es : Entries) : List Text := es.map Prod.fst

@[simp] theorem keys_append (es es' : Entries) : (es ++ es').keys = es.keys ++ es'.keys :=
  List.map_append

@[simp] theorem keys_cons (e : Text × Value) (es : Entries) : keys (e :: es) = e.1 :: es.keys := rfl

theorem lookup_eq_none_iff : es.lookup key = none ↔ key ∉ es.keys := by
  rw [List.lookup_eq_none_iff]
  constructor
  · intro h hkey
    obtain ⟨e, he, rfl⟩ := List.mem_map.mp hkey
    simpa using h e he
  · intro h e he
    have hne : key ≠ e.1 := fun heq => h (List.mem_map.mpr ⟨e, he, heq.symm⟩)
    simpa using hne

/-! Steps -/

/-- What a statement does to the entries of the outermost table: one of them is new or has a new
value. -/
inductive Grows (es : Entries) : Entries → Prop where
  | append {key : Text} (h : es.lookup key = none) (v : Value) : Grows es (es ++ [(key, v)])
  | replace (key : Text) (v : Value) : Grows es (es.replace key v)

theorem assign_grows (h : assign v path es = some es') : Grows es es' := by
  unfold assign at h
  split at h
  · simp at h
  · split at h
    · simp at h
    next hkey =>
      obtain rfl := Option.some.inj h
      exact .append (Option.not_isSome_iff_eq_none.mp hkey) _
  · split at h
    next hkey =>
      obtain ⟨sub, -, hes⟩ := Option.bind_eq_some_iff.mp h
      obtain rfl := Option.some.inj hes
      exact .append hkey _
    · obtain ⟨sub, -, hes⟩ := Option.bind_eq_some_iff.mp h
      obtain rfl := Option.some.inj hes
      exact .replace _ _
    · obtain ⟨sub, -, hes⟩ := Option.bind_eq_some_iff.mp h
      obtain rfl := Option.some.inj hes
      exact .replace _ _
    · simp at h

theorem define_grows (h : define path es = some es') : Grows es es' := by
  unfold define at h
  split at h
  · simp at h
  · split at h
    next hkey =>
      obtain rfl := Option.some.inj h
      exact .append hkey _
    · obtain rfl := Option.some.inj h
      exact .replace _ _
    · simp at h
  · split at h
    next hkey =>
      obtain ⟨sub, -, hes⟩ := Option.bind_eq_some_iff.mp h
      obtain rfl := Option.some.inj hes
      exact .append hkey _
    · simp at h
    · obtain ⟨sub, -, hes⟩ := Option.bind_eq_some_iff.mp h
      obtain rfl := Option.some.inj hes
      exact .replace _ _
    · simp at h

theorem within_grows (hf : ∀ es', f es = some es' → Grows es es')
    (h : within f path es = some es') : Grows es es' := by
  unfold within at h
  split at h
  · exact hf es' h
  · split at h
    · obtain ⟨sub, -, hes⟩ := Option.bind_eq_some_iff.mp h
      obtain rfl := Option.some.inj hes
      exact .replace _ _
    · simp at h

/-- What one statement does below the header `state.1`. -/
def after? (state : List Text × Entries) : Statement → Option (List Text × Entries)
  | .header path => do return (path, ← define path state.2)
  | .value path v => do return (state.1, ← within (assign v path) state.1 state.2)

theorem ofStatements?_eq (statements : List Statement) :
    ofStatements? statements = (statements.foldlM after? ([], [])).map Prod.snd := by
  have hstep : ∀ step : List Text × Entries → Statement → Option (List Text × Entries),
      (∀ state s, step state s = after? state s) →
      (statements.foldlM step ([], [])).bind (some ·.2) =
        (statements.foldlM after? ([], [])).map Prod.snd := by
    intro step h
    obtain rfl : step = after? := funext fun state => funext (h state)
    rw [Option.map_eq_bind]
    rfl
  refine hstep _ ?_
  rintro ⟨here, es⟩ (path | ⟨path, v⟩) <;> rfl

theorem after?_grows {s : Statement} (h : after? state s = some state') :
    Grows state.2 state'.2 := by
  cases s with
  | header path =>
    obtain ⟨es', hes, hstate⟩ := Option.bind_eq_some_iff.mp h
    obtain rfl := Option.some.inj hstate
    exact define_grows hes
  | value path v =>
    obtain ⟨es', hes, hstate⟩ := Option.bind_eq_some_iff.mp h
    obtain rfl := Option.some.inj hstate
    exact within_grows (fun _ => assign_grows) hes

/-! Distinct keys -/

theorem nodup_concat (hn : es.keys.Nodup) (hkey : key ∉ es.keys) :
    (es ++ [(key, v)]).keys.Nodup := by
  rw [keys_append]
  refine List.nodup_append.mpr ⟨hn, by simp [keys], fun k hk k' hk' => ?_⟩
  rintro rfl
  obtain rfl : k = key := by simpa [keys] using hk'
  exact hkey hk

theorem keys_replace (es : Entries) (key : Text) (v : Value) :
    (es.replace key v).keys = es.keys := by
  rw [keys, keys, replace, List.map_map]
  refine List.map_congr_left fun e _ => ?_
  by_cases h : e.1 = key <;> simp [h]

theorem Grows.nodup (h : Grows es es') (hn : es.keys.Nodup) : es'.keys.Nodup := by
  cases h with
  | append hkey v => exact nodup_concat hn (lookup_eq_none_iff.mp hkey)
  | replace key v => rwa [keys_replace]

theorem nodup_foldlM (h : statements.foldlM after? state = some state')
    (hn : state.2.keys.Nodup) : state'.2.keys.Nodup := by
  induction statements generalizing state with
  | nil =>
    obtain rfl := Option.some.inj h
    exact hn
  | cons s statements ih =>
    rw [List.foldlM_cons] at h
    obtain ⟨next, hs, hrest⟩ := Option.bind_eq_some_iff.mp h
    exact ih hrest ((after?_grows hs).nodup hn)

/-- No key of a document stands twice. -/
theorem nodup_read? {t : Text} (h : read? t = some es) : es.keys.Nodup := by
  obtain ⟨statements, -, hes⟩ := Option.bind_eq_some_iff.mp h
  rw [ofStatements?_eq, Option.map_eq_some_iff] at hes
  obtain ⟨state, hstate, rfl⟩ := hes
  exact nodup_foldlM hstate List.nodup_nil

/-! Statements of one key -/

theorem after?_header (hname : name ∉ es.keys) :
    after? (here, es) (.header [name]) = some ([name], es ++ [(name, .table .header [])]) := by
  simp [after?, define, lookup_eq_none_iff.mpr hname]

/-- The statements that give keys their values. -/
def values (es : Entries) : List Statement := es.map fun e => .value [e.1] e.2

/-- Values go to the table at `here`, if the entries around it are those of `place`. -/
theorem foldlM_values {place : Entries → Entries}
    (hplace : ∀ f sub, within f here (place sub) = (f sub).map place)
    (hn : (sub ++ rows).keys.Nodup) :
    (values rows).foldlM after? (here, place sub) = some (here, place (sub ++ rows)) := by
  induction rows generalizing sub with
  | nil => simp [values]
  | cons e rows ih =>
    have hkey : sub.lookup e.1 = none := by
      rw [lookup_eq_none_iff]
      intro hmem
      rw [keys_append, keys_cons] at hn
      exact (List.nodup_append.mp hn).2.2 e.1 hmem e.1 List.mem_cons_self rfl
    have hstep : after? (here, place sub) (.value [e.1] e.2) =
        some (here, place (sub ++ [e])) := by
      simp [after?, hplace, assign, hkey]
    have hrest := @ih (sub ++ [e]) (by simpa using hn)
    rw [values, List.map_cons, List.foldlM_cons, hstep, ← values]
    simpa using hrest

/-- The last table changes in its place. -/
theorem within_last (hname : name ∉ es.keys) (kind : TableKind) (f : Entries → Option Entries)
    (sub : Entries) : within f [name] (es ++ [(name, Value.table kind sub)]) =
      (f sub).map fun sub => es ++ [(name, Value.table kind sub)] := by
  have hlookup : (es ++ [(name, Value.table kind sub)]).lookup name =
      some (Value.table kind sub) := by
    simp [List.lookup_append, lookup_eq_none_iff.mpr hname]
  have hreplace : ∀ v, replace (es ++ [(name, Value.table kind sub)]) name v =
      es ++ [(name, v)] := by
    intro v
    have hes : ∀ e ∈ es, (if e.1 = name then (name, v) else e) = e := by
      intro e he
      rw [if_neg]
      rintro rfl
      exact hname (List.mem_map_of_mem he)
    simp [replace, List.map_congr_left hes]
  rw [within, hlookup]
  simp only [hreplace, within]
  cases f sub <;> rfl

/-- The statements of a table below its header. -/
def headed (t : Text × Entries) : List Statement := .header [t.1] :: values t.2

/-- The entry of a table with a header. -/
def ofTable (t : Text × Entries) : Text × Value := (t.1, .table .header t.2)

theorem foldlM_headed {t : Text × Entries} (hname : t.1 ∉ es.keys) (hn : t.2.keys.Nodup) :
    (headed t).foldlM after? (here, es) = some ([t.1], es ++ [ofTable t]) := by
  rw [headed, List.foldlM_cons, after?_header hname]
  exact foldlM_values (within_last hname .header) hn

theorem foldlM_tables {ts : List (Text × Entries)} (hn : (es ++ ts.map ofTable).keys.Nodup)
    (hts : ∀ t ∈ ts, t.2.keys.Nodup) :
    ((ts.flatMap headed).foldlM after? (here, es)).map Prod.snd = some (es ++ ts.map ofTable) := by
  induction ts generalizing here es with
  | nil => simp
  | cons t ts ih =>
    rw [List.forall_mem_cons] at hts
    have hname : t.1 ∉ es.keys := by
      intro hmem
      rw [List.map_cons, keys_append, keys_cons] at hn
      exact (List.nodup_append.mp hn).2.2 t.1 hmem t.1 List.mem_cons_self rfl
    have hrest := @ih (es ++ [ofTable t]) [t.1] (by simpa using hn) hts.2
    rw [List.flatMap_cons, List.foldlM_append, foldlM_headed hname hts.1]
    simpa using hrest

/-- The values of a document, and its tables below them, are there in their order. -/
theorem ofStatements?_tables {ts : List (Text × Entries)}
    (hn : (es ++ ts.map ofTable).keys.Nodup) (hts : ∀ t ∈ ts, t.2.keys.Nodup) :
    ofStatements? (values es ++ ts.flatMap headed) = some (es ++ ts.map ofTable) := by
  have hes : es.keys.Nodup := by
    rw [keys_append] at hn
    exact (List.nodup_append.mp hn).1
  have hplace : ∀ (f : Entries → Option Entries) sub, within f [] (id sub) = (f sub).map id := by
    intro f sub
    simp [within]
  have hvalues : (values es).foldlM after? ([], []) = some ([], es) :=
    foldlM_values hplace (List.nil_append es ▸ hes)
  rw [ofStatements?_eq, List.foldlM_append, hvalues]
  exact foldlM_tables hn hts

/-! Entries that are taken out -/

/-- The entries of a table whose keys are kept. -/
def keep (p : Text → Bool) (es : Entries) : Entries := es.filter (p ·.1)

end Entries

/-- The value with the kept entries, if it is a table. -/
def Value.keep (p : Text → Bool) : Value → Value
  | .table kind es => .table kind (Entries.keep p es)
  | v => v

theorem Value.keep_of_forall {p : Text → Bool} (h : ∀ k, p k = true) (v : Value) :
    v.keep p = v := by
  cases v with
  | table kind es => simp [keep, Entries.keep, h]
  | _ => rfl

/-- The entries of a document without those at some paths of one key or two. -/
def Entries.without (removed : List (List Text)) (es : Entries) : Entries :=
  (es.keep (!removed.contains [·])).map fun e => (e.1, e.2.keep (!removed.contains [e.1, ·]))

end TripleSlash.Toml
