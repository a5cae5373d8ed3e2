import TripleSlash.Proofs.Text.Stops
import TripleSlash.Proofs.Text.Words

/-! Which reading of a text is the preferred one. Where a pattern may stop at several places, that
depends on what the patterns behind it make of the text that is left. -/
namespace TripleSlash.Pattern

variable {ι : Type} {p q : Pattern ι} {ok : Text → Bool} {accepts : Char → Bool} {c : Char}
  {x x' y t : Text} {parts parts' : List (ι × Text)} {m m' : Reading ι}

theorem mem_seq (h : m ∈ (seq p q).readings t) :
    ∃ m₁ ∈ p.readings t, ∃ m₂ ∈ q.readings m₁.rest, m = m₂.after m₁.parts := by
  simp only [readings, List.mem_flatMap, List.mem_map] at h
  obtain ⟨m₁, h₁, m₂, h₂, rfl⟩ := h
  exact ⟨m₁, h₁, m₂, h₂, rfl⟩

theorem mem_readings_seq (hp : m ∈ p.readings t) (hq : m' ∈ q.readings m.rest) :
    m'.after m.parts ∈ (seq p q).readings t :=
  List.mem_flatMap.mpr ⟨m, hp, List.mem_map_of_mem hq⟩

theorem mem_opt (h : m ∈ (opt p).readings t) : m ∈ p.readings t ∨ m = ⟨[], t⟩ := by
  simpa [opt, readings] using h

/-- Whether a pattern captures nothing. -/
def silent : Pattern ι → Bool
  | done => true
  | one _ => true
  | run _ => true
  | seq p q => p.silent && q.silent
  | alt p q => p.silent && q.silent
  | star p => p.silent
  | commit p => p.silent
  | part _ _ => false

theorem silent_text (x : Text) : (text x : Pattern ι).silent = true := by
  induction x with
  | nil => rfl
  | cons c x ih => exact ih

theorem mem_text (h : m ∈ (text x).readings t) : t = x ++ m.rest := by
  rw [readings_text] at h
  split at h
  next hx =>
    obtain ⟨y, rfl⟩ := hx
    obtain rfl : m = ⟨[], y⟩ := by simpa using h
    rfl
  next => simp at h

theorem mem_run (h : m ∈ (run accepts).readings t) :
    ∃ x : Stretch accepts, t = x.text ++ m.rest ∧ Text.Stops accepts m.rest := by
  obtain rfl : m = ⟨[], t.dropWhile accepts⟩ := by simpa [readings] using h
  exact ⟨⟨t.takeWhile accepts, List.all_eq_true.mp List.all_takeWhile⟩, by simp,
    Text.stops_dropWhile accepts t⟩

theorem mem_run1 (h : m ∈ (run1 accepts).readings t) :
    ∃ x : Stretch1 accepts, t = x.text ++ m.rest ∧ Text.Stops accepts m.rest := by
  obtain ⟨m₁, h₁, m₂, h₂, rfl⟩ := mem_seq h
  cases t with
  | nil => simp [readings] at h₁
  | cons c t =>
    obtain ⟨hc, rfl⟩ : accepts c = true ∧ m₁ = ⟨[], t⟩ := by simpa [readings] using h₁
    obtain ⟨x, hx, hstop⟩ := mem_run h₂
    refine ⟨⟨⟨c :: x.text, ?_⟩, by simp⟩, congrArg (c :: ·) hx, hstop⟩
    intro d hd
    rcases List.mem_cons.mp hd with rfl | hd
    · exact hc
    · exact x.all d hd

/-- What holds of no repetition, and of one more if it holds of the others, holds of all. -/
theorem star_induction {P : Text → Reading ι → Prop} (hnone : ∀ t, P t ⟨[], t⟩)
    (hmore : ∀ t, ∀ m ∈ p.readings t, ∀ m', P m.rest m' → P t (m'.after m.parts))
    (h : m ∈ (star p).readings t) : P t m := by
  have hrepeated : ∀ n t m, m ∈ repeated p.readings n t → P t m := by
    intro n
    induction n with
    | zero =>
      intro t m hm
      obtain rfl : m = ⟨[], t⟩ := by simpa [repeated] using hm
      exact hnone t
    | succ n ih =>
      intro t m hm
      simp only [repeated, List.mem_append, List.mem_flatMap, List.mem_map,
        List.mem_singleton] at hm
      rcases hm with ⟨m₁, h₁, m₂, h₂, rfl⟩ | rfl
      · exact hmore t m₁ h₁ m₂ (ih m₁.rest m₂ h₂)
      · exact hnone t
  exact hrepeated _ t m h

theorem parts_eq_nil (hp : p.silent = true) (h : m ∈ p.readings t) : m.parts = [] := by
  induction p generalizing t m with
  | done =>
    obtain rfl : m = ⟨[], t⟩ := by simpa [readings] using h
    rfl
  | one accepts =>
    cases t with
    | nil => simp [readings] at h
    | cons c t =>
      obtain ⟨-, rfl⟩ : accepts c = true ∧ m = ⟨[], t⟩ := by simpa [readings] using h
      rfl
  | run accepts =>
    obtain rfl : m = ⟨[], t.dropWhile accepts⟩ := by simpa [readings] using h
    rfl
  | seq p q ihp ihq =>
    simp only [silent, Bool.and_eq_true] at hp
    obtain ⟨m₁, h₁, m₂, h₂, rfl⟩ := mem_seq h
    simp [Reading.after, ihp hp.1 h₁, ihq hp.2 h₂]
  | alt p q ihp ihq =>
    simp only [silent, Bool.and_eq_true] at hp
    exact (List.mem_append.mp h).elim (ihp hp.1) (ihq hp.2)
  | star p ih =>
    refine star_induction (P := fun _ m => m.parts = []) (fun _ => rfl) ?_ h
    intro t m hm m' hm'
    simp [Reading.after, ih hp hm, hm']
  | commit p ih => exact ih hp (List.mem_of_mem_take h)
  | part label p => simp [silent] at hp

/-- Whether a pattern may capture something under a label. -/
def labels [BEq ι] (label : ι) : Pattern ι → Bool
  | done => false
  | one _ => false
  | run _ => false
  | seq p q => p.labels label || q.labels label
  | alt p q => p.labels label || q.labels label
  | star p => p.labels label
  | commit p => p.labels label
  | part label' p => label == label' || p.labels label

theorem lookup_eq_none [BEq ι] {label : ι} (hp : p.labels label = false) (h : m ∈ p.readings t) :
    m.parts.lookup label = none := by
  induction p generalizing t m with
  | done =>
    obtain rfl : m = ⟨[], t⟩ := by simpa [readings] using h
    rfl
  | one accepts =>
    cases t with
    | nil => simp [readings] at h
    | cons c t =>
      obtain ⟨-, rfl⟩ : accepts c = true ∧ m = ⟨[], t⟩ := by simpa [readings] using h
      rfl
  | run accepts =>
    obtain rfl : m = ⟨[], t.dropWhile accepts⟩ := by simpa [readings] using h
    rfl
  | seq p q ihp ihq =>
    simp only [labels, Bool.or_eq_false_iff] at hp
    obtain ⟨m₁, h₁, m₂, h₂, rfl⟩ := mem_seq h
    simp [Reading.after, List.lookup_append, ihp hp.1 h₁, ihq hp.2 h₂]
  | alt p q ihp ihq =>
    simp only [labels, Bool.or_eq_false_iff] at hp
    exact (List.mem_append.mp h).elim (ihp hp.1) (ihq hp.2)
  | star p ih =>
    refine star_induction (P := fun _ m => m.parts.lookup label = none) (fun _ => rfl) ?_ h
    intro t m hm m' hm'
    simp [Reading.after, List.lookup_append, ih hp hm, hm']
  | commit p ih => exact ih hp (List.mem_of_mem_take h)
  | part label' p ih =>
    simp only [labels, Bool.or_eq_false_iff] at hp
    simp only [readings, List.mem_map] at h
    obtain ⟨m₁, h₁, rfl⟩ := h
    simpa [List.lookup_cons, hp.1] using ih hp.2 h₁

/-- Under a label that only one pattern of a sequence has stands what that pattern captures. -/
theorem mem_all_lookup [BEq ι] (ps : List (Pattern ι)) {qs : List (Pattern ι)}
    (h : m ∈ (all (ps ++ q :: qs)).readings t) : ∃ s, ∃ m' ∈ q.readings s, ∀ label,
      (all ps).labels label = false → (all qs).labels label = false →
        m.parts.lookup label = m'.parts.lookup label := by
  rw [readings_all_append] at h
  obtain ⟨m₁, h₁, hrest⟩ := List.mem_flatMap.mp h
  obtain ⟨m₂, h₂, rfl⟩ := List.mem_map.mp hrest
  obtain ⟨m₃, h₃, m₄, h₄, rfl⟩ := mem_seq h₂
  refine ⟨m₁.rest, m₃, h₃, fun label hps hqs => ?_⟩
  simp [Reading.after, List.lookup_append, lookup_eq_none hps h₁, lookup_eq_none hqs h₄]

theorem readings_seq_eq_nil (h : ∀ m ∈ p.readings t, q.readings m.rest = []) :
    (seq p q).readings t = [] := by
  simp only [readings, List.flatMap_eq_nil_iff, List.map_eq_nil_iff]
  exact h

theorem readings_text_eq_nil (h : Text.Stops (· == c) t) :
    (text (c :: x) : Pattern ι).readings t = [] := by
  cases t with
  | nil => simp [readings_text]
  | cons d t =>
    have hd : d ≠ c := by simpa using h
    simp [readings_text, hd.symm]

theorem readings_run1_eq_nil (h : Text.Stops accepts t) :
    (run1 accepts : Pattern ι).readings t = [] := by
  cases t with
  | nil => simp [run1, readings]
  | cons d t =>
    have hd : accepts d = false := by simpa using h
    simp [run1, readings, hd]

theorem read?_of_unique (h : m ∈ p.readings t) (hall : ∀ m' ∈ p.readings t, m' = m) :
    p.read? t = some m := by
  unfold read?
  cases hr : p.readings t with
  | nil => simp [hr] at h
  | cons m' ms => simp [hall m' (by simp [hr])]

theorem read?_run (hx : ∀ c ∈ x, accepts c = true) (hy : Text.Stops accepts y) :
    (run accepts : Pattern ι).read? (x ++ y) = some ⟨[], y⟩ := by
  simp [read?, readings, Text.dropWhile_stretch hx hy]

theorem read?_text (x y : Text) : (text x : Pattern ι).read? (x ++ y) = some ⟨[], y⟩ := by
  simp [read?, readings_text]

theorem read?_seq (hp : p.read? t = some m) (hq : q.read? m.rest = some m') :
    (seq p q).read? t = some (m'.after m.parts) := by
  obtain ⟨ms, hms⟩ := List.head?_eq_some_iff.mp hp
  obtain ⟨ms', hms'⟩ := List.head?_eq_some_iff.mp hq
  simp [read?, readings, hms, hms']

/-- A pattern that captures nothing is passed over. -/
theorem read?_skip (hp : p.read? t = some ⟨[], y⟩) (hq : q.read? y = some m) :
    (seq p q).read? t = some m := read?_seq hp hq

theorem read?_done (t : Text) : (done : Pattern ι).read? t = some ⟨[], t⟩ := rfl

theorem read?_run1 (x : Stretch1 accepts) (hy : Text.Stops accepts y) :
    (run1 accepts : Pattern ι).read? (x.text ++ y) = some ⟨[], y⟩ := by
  cases hx : x.text with
  | nil => exact absurd hx x.ne
  | cons c s =>
    have hall := x.all
    rw [hx] at hall
    have hrun := read?_run (ι := ι) (fun d hd => hall d (List.mem_cons_of_mem c hd)) hy
    refine read?_seq (m := ⟨[], s ++ y⟩) ?_ hrun
    simp [read?, readings, hall c (by simp)]

theorem read?_part (h : p.read? (x ++ y) = some ⟨parts, y⟩) (label : ι) :
    (part label p).read? (x ++ y) = some ⟨(label, x) :: parts, y⟩ := by
  obtain ⟨ms, hms⟩ := List.head?_eq_some_iff.mp h
  simp [read?, readings, hms]

theorem readings_skip (h : p.readings t = [⟨[], y⟩]) (q : Pattern ι) :
    (seq p q).readings t = q.readings y := by
  have hnone : ∀ m : Reading ι, m.after [] = m := fun _ => rfl
  simp [readings, h, hnone]

theorem read?_commit (p : Pattern ι) (t : Text) : (commit p).read? t = p.read? t := by
  simp [read?, readings, List.head?_take]

theorem read?_opt (h : p.read? t = some m) : (opt p).read? t = some m := by
  obtain ⟨ms, hms⟩ := List.head?_eq_some_iff.mp h
  simp [read?, opt, readings, hms]

theorem readings_opt_none (h : p.readings t = []) : (opt p).readings t = [⟨[], t⟩] := by
  simp [opt, readings, h]

theorem read?_opt_none (h : p.readings t = []) : (opt p).read? t = some ⟨[], t⟩ := by
  rw [read?, readings_opt_none h]
  rfl

theorem readings_star_none (h : p.readings t = []) : (star p).readings t = [⟨[], t⟩] := by
  cases t with
  | nil => rfl
  | cons c t => simp [readings, repeated, h]

theorem read?_star_none (h : p.readings t = []) : (star p).read? t = some ⟨[], t⟩ := by
  rw [read?, readings_star_none h]
  rfl

/-- A repetition is read once and then again as often as possible. -/
theorem read?_star (hmoves : p.moves = true) (hp : p.read? t = some m)
    (hstar : (star p).read? m.rest = some m') : (star p).read? t = some (m'.after m.parts) := by
  obtain ⟨ms, hms⟩ := List.head?_eq_some_iff.mp hp
  have hlt := length_rest_lt hmoves (mem_readings_of_read? hp)
  obtain ⟨n, hn⟩ : ∃ n, t.length = n + 1 := ⟨t.length - 1, by omega⟩
  -- Fewer repetitions are counted on behind the first, which makes no difference.
  have hfuel : repeated p.readings n m.rest = (star p).readings m.rest := by
    have hbody : ∀ t, p.readings (t ++ []) = (p.readings t).map (·.onto []) := by
      simp [Reading.onto]
    have h := repeated_append (t := m.rest) (n := n) hbody
      (fun t m hm => length_rest_lt hmoves hm) (by omega) (Nat.le_refl _)
    simpa [Reading.onto, readings] using h
  obtain ⟨ms', hms'⟩ := List.head?_eq_some_iff.mp hstar
  rw [read?, readings, hn, repeated, hms, List.flatMap_cons, hfuel, hms']
  rfl

/-- Of the readings of `x ++ y` that leave a text of a kind, the preferred one takes `x`. -/
def Picks (p : Pattern ι) (ok : Text → Bool) (x y : Text) (parts : List (ι × Text)) : Prop :=
  (p.readings (x ++ y)).find? (fun m => ok m.rest) = some ⟨parts, y⟩

/-- Whether a text may be read so that a text of a kind is left. -/
def leaves (p : Pattern ι) (ok : Text → Bool) (t : Text) : Bool :=
  (p.readings t).any fun m => ok m.rest

theorem leaves_of_picks (h : Picks p ok x y parts) : p.leaves ok (x ++ y) = true := by
  unfold Picks at h
  have hy := List.find?_some h
  exact List.any_eq_true.mpr ⟨⟨parts, y⟩, List.mem_of_find?_eq_some h, hy⟩

theorem leaves_eq_false (h : p.readings t = []) : p.leaves ok t = false := by
  simp [leaves, h]

theorem read?_of_picks (h : Picks p (fun _ => true) x y parts) :
    p.read? (x ++ y) = some ⟨parts, y⟩ := by
  unfold Picks at h
  unfold read?
  cases hr : p.readings (x ++ y) with
  | nil => simp [hr] at h
  | cons m ms => simpa [hr] using h

theorem picks_of_read? (h : p.read? (x ++ y) = some ⟨parts, y⟩) (hy : ok y = true) :
    Picks p ok x y parts := by
  obtain ⟨ms, hms⟩ := List.head?_eq_some_iff.mp h
  simp [Picks, hms, hy]

theorem picks_done (hy : ok y = true) : Picks (done : Pattern ι) ok [] y [] := by
  simp [Picks, readings, hy]

/-- The first pattern of a sequence leaves a text from which the second can go on. -/
theorem picks_seq (hp : Picks p (q.leaves ok) x (x' ++ y) parts) (hq : Picks q ok x' y parts') :
    Picks (seq p q) ok (x ++ x') y (parts ++ parts') := by
  unfold Picks at hp hq ⊢
  rw [← List.append_assoc] at hp
  simp only [readings]
  generalize p.readings (x ++ x' ++ y) = ms at hp ⊢
  induction ms with
  | nil => simp at hp
  | cons m ms ih =>
    rw [List.flatMap_cons, List.find?_append, List.find?_map]
    cases hm : q.leaves ok m.rest with
    | true =>
      obtain rfl : m = ⟨parts, x' ++ y⟩ := by simpa [hm] using hp
      have hfind : (q.readings (x' ++ y)).find? ((fun m => ok m.rest) ∘ fun m => m.after parts) =
          some ⟨parts', y⟩ := hq
      rw [hfind]
      rfl
    | false =>
      have hfind : (q.readings m.rest).find? ((fun m => ok m.rest) ∘ fun m' => m'.after m.parts) =
          none := by
        rw [List.find?_eq_none]
        intro m' hm'
        have := List.any_eq_false.mp hm m' hm'
        simpa [Reading.after] using this
      rw [hfind]
      simpa [hm] using ih (by simpa [hm] using hp)

theorem picks_then (hp : p.read? (x ++ (x' ++ y)) = some ⟨parts, x' ++ y⟩)
    (hq : Picks q ok x' y parts') : Picks (seq p q) ok (x ++ x') y (parts ++ parts') :=
  picks_seq (picks_of_read? hp (leaves_of_picks hq)) hq

theorem picks_skip (hp : p.read? (x ++ (x' ++ y)) = some ⟨[], x' ++ y⟩)
    (hq : Picks q ok x' y parts) : Picks (seq p q) ok (x ++ x') y parts := picks_then hp hq

theorem picks_part (h : Picks p ok x y parts) (label : ι) :
    Picks (part label p) ok x y ((label, x) :: parts) := by
  unfold Picks at h ⊢
  simp only [readings, List.find?_map]
  rw [show ((fun m : Reading ι => ok m.rest) ∘ fun m => _) = fun m => ok m.rest from rfl, h]
  simp

theorem picks_first (h : Picks p ok x y parts) (q : Pattern ι) : Picks (alt p q) ok x y parts := by
  unfold Picks at h ⊢
  simp [readings, h]

theorem picks_second (hp : p.leaves ok (x ++ y) = false) (hq : Picks q ok x y parts) :
    Picks (alt p q) ok x y parts := by
  have hnone : (p.readings (x ++ y)).find? (fun m => ok m.rest) = none := by
    rw [List.find?_eq_none]
    exact fun m hm => by simpa using List.any_eq_false.mp hp m hm
  unfold Picks at hq ⊢
  rw [readings, List.find?_append, hnone, hq]
  rfl

theorem picks_opt (h : Picks p ok x y parts) : Picks (opt p) ok x y parts := by
  unfold Picks at h ⊢
  simp [opt, readings, h]

theorem readings_star_one (accepts : Char → Bool) (c : Char) (t : Text) :
    (star (one accepts) : Pattern ι).readings (c :: t) =
      (if accepts c then (star (one accepts)).readings t else []) ++ [⟨[], c :: t⟩] := by
  have hnone : ∀ m : Reading ι, m.after [] = m := fun _ => rfl
  cases hc : accepts c <;> simp [readings, repeated, hc, hnone]

/-- Characters of a class are read up to the last place that leaves a text of a kind. -/
theorem picks_star_one (hx : ∀ c ∈ x, accepts c = true) (hy : ok y = true)
    (hlast : ∀ u v, y = u ++ v → u ≠ [] → (∀ c ∈ u, accepts c = true) → ok v = false) :
    Picks (star (one accepts) : Pattern ι) ok x y [] := by
  unfold Picks
  induction x with
  | nil =>
    cases y with
    | nil => simp [readings, repeated, hy]
    | cons c y =>
      have hnone : ((if accepts c then (star (one accepts)).readings y else []) :
          List (Reading ι)).find? (fun m => ok m.rest) = none := by
        split
        next hc =>
          rw [List.find?_eq_none]
          intro m hm
          obtain ⟨u, hu, hall, -⟩ := takes_of_mem hm
          have hcu : ∀ d ∈ c :: u, accepts d = true := by
            intro d hd
            rcases List.mem_cons.mp hd with rfl | hd
            · exact hc
            · exact hall d hd
          simp [hlast (c :: u) m.rest (by simp [hu]) (by simp) hcu]
        next => rfl
      rw [List.nil_append, readings_star_one, List.find?_append, hnone]
      simp [hy]
  | cons c x ih =>
    have ih := ih fun d hd => hx d (by simp [hd])
    rw [List.cons_append, readings_star_one, if_pos (hx c (by simp)), List.find?_append, ih]
    rfl

end TripleSlash.Pattern
