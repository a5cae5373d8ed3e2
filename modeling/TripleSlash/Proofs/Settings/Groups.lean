import TripleSlash.Proofs.Toml.Tables
import TripleSlash.Settings.File

/-! Settings of one kind under the keys of a table: the switches of the access modifiers, and the
templates. -/
namespace TripleSlash.Settings

open Toml (Value Entries TableKind)

variable {α β σ : Type} [DecidableEq α] {s s' t : σ} {a : α} {b : β} {e : Text × Value}
  {es : Entries} {kind : TableKind} {p : Text → Bool}

/-- How settings of type `β` under the names `α` are kept in a `σ`. -/
structure Group (α β σ : Type) [DecidableEq α] where
  names : List α
  key : α → Text
  value? : Value → Option β
  get : σ → α → β
  put : σ → α → β → σ
  initial : σ
  find?_key : ∀ a, names.find? (key · = key a) = some a
  get_put : ∀ s a b a', get (put s a b) a' = if a = a' then b else get s a'
  ext : ∀ s s', (∀ a, get s a = get s' a) → s = s'

namespace Group

variable {g : Group α β σ}

def read? (g : Group α β σ) (v : Value) : Option σ := do
  (← members? g.names g.key v).foldlM (fun s (a, v) => (g.value? v).map (g.put s a)) g.initial

/-- Makes the setting of one entry of a table. -/
def enter? (g : Group α β σ) (s : σ) (e : Text × Value) : Option σ :=
  (g.names.find? (g.key · = e.1)).bind fun a => (g.value? e.2).map (g.put s a)

theorem foldlM_mapM {δ : Type} (f : Text × Value → Option δ) (next : σ → δ → Option σ) (s : σ)
    (es : Entries) : (es.mapM f).bind (fun ds => ds.foldlM next s) =
      es.foldlM (fun s e => (f e).bind (next s)) s := by
  induction es generalizing s with
  | nil => rfl
  | cons e es ih =>
    rw [List.mapM_cons, List.foldlM_cons]
    cases hd : f e with
    | none => rfl
    | some d =>
      cases hs : next s d with
      | none => cases hes : es.mapM f <;> simp [hs]
      | some s' => simpa [hs, Option.bind_assoc] using ih s'

theorem read?_table (g : Group α β σ) (kind : TableKind) (es : Entries) :
    g.read? (.table kind es) = es.foldlM g.enter? g.initial := by
  have henter : g.enter? = fun s e => ((g.names.find? (g.key · = e.1)).map (·, e.2)).bind
      fun x => (g.value? x.2).map (g.put s x.1) := by
    funext s e
    rw [enter?, Option.bind_map]
    rfl
  rw [henter, ← foldlM_mapM]
  rfl

theorem mem_names (g : Group α β σ) (a : α) : a ∈ g.names :=
  List.mem_of_find?_eq_some (g.find?_key a)

theorem enter?_eq_some (h : g.enter? s e = some s') :
    ∃ a b, e.1 = g.key a ∧ g.value? e.2 = some b ∧ s' = g.put s a b := by
  obtain ⟨a, ha, hs⟩ := Option.bind_eq_some_iff.mp h
  obtain ⟨b, hb, rfl⟩ := Option.map_eq_some_iff.mp hs
  have hkey : g.key a = e.1 := by simpa using List.find?_some ha
  exact ⟨a, b, hkey.symm, hb, rfl⟩

theorem enter?_key (g : Group α β σ) (s : σ) {v : Value} (hb : g.value? v = some b) :
    g.enter? s (g.key a, v) = some (g.put s a b) := by
  simp [enter?, g.find?_key, hb]

/-! Keys that are known -/

/-- A table that can be read has no other keys than those of the names. -/
theorem known_of_read? (h : g.read? (.table kind es) = some s) :
    ∀ k ∈ es.keys, ∃ a, k = g.key a := by
  rw [read?_table] at h
  generalize g.initial = start at h
  induction es generalizing start with
  | nil => simp [Entries.keys]
  | cons e es ih =>
    rw [List.foldlM_cons] at h
    obtain ⟨next, he, hes⟩ := Option.bind_eq_some_iff.mp h
    obtain ⟨a, b, hkey, -, -⟩ := enter?_eq_some he
    rw [Entries.keys_cons, List.forall_mem_cons]
    exact ⟨⟨a, hkey⟩, ih next hes⟩

/-! Keys that are taken out -/

/-- Whether `s'` has the settings of `s` where keys are kept, and the initial ones elsewhere. -/
def Kept (g : Group α β σ) (p : Text → Bool) (s s' : σ) : Prop :=
  ∀ a, g.get s' a = if p (g.key a) then g.get s a else g.get g.initial a

theorem kept_initial (g : Group α β σ) (p : Text → Bool) : g.Kept p g.initial g.initial := by
  intro a
  split <;> rfl

theorem Kept.put (h : g.Kept p s s') (a : α) (b : β) :
    g.Kept p (g.put s a b) (if p (g.key a) then g.put s' a b else s') := by
  intro a'
  have ha' := h a'
  by_cases hp : p (g.key a) = true
  · rw [if_pos hp, g.get_put, g.get_put]
    by_cases ha : a = a'
    · simp [← ha, hp]
    · simpa [ha] using ha'
  · rw [if_neg hp, g.get_put]
    by_cases ha : a = a'
    · simpa [← ha, hp] using ha'
    · simpa [ha] using ha'

theorem Kept.foldlM (h : g.Kept p s s') (hes : es.foldlM g.enter? s = some t) :
    ∃ t', (Entries.keep p es).foldlM g.enter? s' = some t' ∧ g.Kept p t t' := by
  induction es generalizing s s' with
  | nil =>
    obtain rfl := Option.some.inj hes
    exact ⟨s', rfl, h⟩
  | cons e es ih =>
    rw [List.foldlM_cons] at hes
    obtain ⟨next, he, hrest⟩ := Option.bind_eq_some_iff.mp hes
    obtain ⟨a, b, hkey, hb, rfl⟩ := enter?_eq_some he
    have hput := h.put a b
    by_cases hp : p (g.key a) = true
    · rw [if_pos hp] at hput
      obtain ⟨t', ht', hkept⟩ := ih hput hrest
      have hkeep : Entries.keep p (e :: es) = e :: Entries.keep p es :=
        List.filter_cons_of_pos (by simpa [hkey] using hp)
      have hstep : g.enter? s' e = some (g.put s' a b) := by
        rw [← enter?_key g s' hb, ← hkey]
      refine ⟨t', ?_, hkept⟩
      rw [hkeep, List.foldlM_cons, hstep]
      exact ht'
    · rw [if_neg hp] at hput
      obtain ⟨t', ht', hkept⟩ := ih hput hrest
      have hkeep : Entries.keep p (e :: es) = Entries.keep p es :=
        List.filter_cons_of_neg (by simpa [hkey] using hp)
      exact ⟨t', by rw [hkeep, ht'], hkept⟩

/-- A table can still be read without some of its keys. Nothing else than a table has keys. -/
theorem read?_keep {v : Value} (h : g.read? v = some s)
    (hv : (∀ k, p k = true) ∨ ∃ kind es, v = .table kind es) :
    ∃ s', g.read? (v.keep p) = some s' ∧ g.Kept p s s' := by
  rcases hv with hp | ⟨kind, es, rfl⟩
  · refine ⟨s, ?_, fun a => by rw [if_pos (hp _)]⟩
    rw [Value.keep_of_forall hp, h]
  · rw [read?_table] at h
    obtain ⟨s', hs', hkept⟩ := (g.kept_initial p).foldlM h
    exact ⟨s', (read?_table g kind _).trans hs', hkept⟩

/-! Tables with every key -/

theorem foldlM_names {write : α → Value} {get : α → β}
    (hwrite : ∀ a, g.value? (write a) = some (get a)) (names : List α) (s : σ) :
    ∃ s', (names.map fun a => (g.key a, write a)).foldlM g.enter? s = some s' ∧
      ∀ a, (a ∈ names → g.get s' a = get a) ∧ (g.get s a = get a → g.get s' a = get a) := by
  induction names generalizing s with
  | nil => exact ⟨s, rfl, fun a => ⟨by simp, id⟩⟩
  | cons a names ih =>
    obtain ⟨s', hs', hget⟩ := ih (g.put s a (get a))
    refine ⟨s', ?_, fun a' => ⟨fun hmem => ?_, fun hs => ?_⟩⟩
    · rw [List.map_cons, List.foldlM_cons, enter?_key g s (hwrite a)]
      exact hs'
    · rcases List.mem_cons.mp hmem with rfl | hmem
      · exact (hget a').2 (by rw [g.get_put, if_pos rfl])
      · exact (hget a').1 hmem
    · apply (hget a').2
      rw [g.get_put]
      split
      next ha => rw [ha]
      next => exact hs

/-- A table with every key is read as what it was written from. -/
theorem read?_names {write : α → Value} (hwrite : ∀ a, g.value? (write a) = some (g.get s a)) :
    g.read? (.table kind (g.names.map fun a => (g.key a, write a))) = some s := by
  obtain ⟨s', hs', hget⟩ := foldlM_names hwrite g.names g.initial
  rw [read?_table, hs', g.ext s' s fun a => (hget a).1 (g.mem_names a)]

end Group

/-! The two groups -/

/-- The switches, as `access?` reads them. -/
def switches : Group Access Bool AccessSet where
  names := Access.all
  key := Access.key
  value? := boolean?
  get := AccessSet.contains
  put := AccessSet.put
  initial := .visible
  find?_key := fun a => by cases a <;> rfl
  get_put := fun s a on a' => AccessSet.contains_put s a a' on
  ext := by
    rintro ⟨⟩ ⟨⟩ h
    simp only [AccessSet.mk.injEq]
    exact ⟨h .pub, h .internal, h .prot, h .protInternal, h .priv, h .privProt⟩

/-- The templates, as `templates?` reads them. -/
def slots : Group Templates.Slot Text Templates where
  names := Templates.Slot.all
  key := Templates.Slot.key
  value? := string?
  get := Templates.template
  put := Templates.put
  initial := .stock
  find?_key := fun a => by cases a <;> rfl
  get_put := fun ts a t a' => Templates.template_put ts a a' t
  ext := by
    rintro ⟨⟩ ⟨⟩ h
    simp only [Templates.mk.injEq]
    exact ⟨h .type, h .constructor, h .method, h .parameter, h .returns, h .get, h .getSet,
      h .getInit, h .set, h .init⟩

end TripleSlash.Settings
