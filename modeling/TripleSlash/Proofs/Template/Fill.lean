import TripleSlash.Comment.Basic
import TripleSlash.Proofs.Comment.Lines

/-! Filling a template, hole by hole, and what keeps its lines comments. -/
namespace TripleSlash.Template

open Comment

variable {values : Values} {t key x : Text} {c : Char}

theorem fillFrom_eq_fill (n : Nat) (t : Text) : fillFrom values n t = fill values (t.drop n) := by
  induction n generalizing t with
  | zero => rfl
  | succ n ih =>
    cases t with
    | nil => rfl
    | cons c t => simpa [fillFrom] using ih t

/-- A hole that has a value begins with its key. -/
theorem holeAt?_eq_some {value : Text} {n : Nat} (h : holeAt? values t = some (value, n)) :
    ∃ key rest, t = key ++ '}' :: rest ∧ '}' ∉ key ∧ values.lookup key = some value := by
  simp only [holeAt?] at h
  split at h
  next hlt =>
    obtain ⟨v, hv, he⟩ := Option.map_eq_some_iff.mp h
    obtain rfl : v = value := congrArg Prod.fst he
    have ht : t.takeWhile (· != '}') ++ t.dropWhile (· != '}') = t :=
      List.takeWhile_append_dropWhile
    have hnot : '}' ∉ t.takeWhile (· != '}') := by
      intro hm
      simpa using List.all_eq_true.mp List.all_takeWhile _ hm
    cases hd : t.dropWhile (· != '}') with
    | nil =>
      rw [hd, List.append_nil] at ht
      rw [ht] at hlt
      exact absurd hlt (Nat.lt_irrefl _)
    | cons d rest =>
      obtain rfl : d = '}' := by
        have := List.head_dropWhile_not (p := (· != '}')) (l := t) (by simp [hd])
        simpa [hd] using this
      rw [hd] at ht
      exact ⟨_, rest, ht.symm, hnot, hv⟩
  next => simp at h

theorem takeWhile_key (hk : '}' ∉ key) (t : Text) :
    (key ++ '}' :: t).takeWhile (· != '}') = key := by
  rw [List.takeWhile_append_of_pos]
  · simp
  · intro c hc
    simpa using fun he : c = '}' => hk (he ▸ hc)

/-- A hole gets its value. -/
theorem fill_hole {value : Text} (hk : '}' ∉ key) (hv : values.lookup key = some value) :
    fill values (hole key ++ t) = value ++ fill values t := by
  have hhole : holeAt? values (key ++ '}' :: t) = some (value, key.length + 1) := by
    simp [holeAt?, takeWhile_key hk, hv]
  have hdrop : (key ++ '}' :: t).drop (key.length + 1) = t := by
    simp [List.drop_append]
  rw [show hole key ++ t = '{' :: (key ++ '}' :: t) by simp [hole]]
  simp only [fill, fillFrom, if_true, hhole]
  rw [fillFrom_eq_fill, hdrop]
  rfl

/-- A template is read on past a character, or past a hole that has a value. -/
theorem fill_induction (values : Values) {motive : Text → Prop} (nil : motive [])
    (char : ∀ c t, fill values (c :: t) = c :: fill values t → motive t → motive (c :: t))
    (filled : ∀ key value rest, values.lookup key = some value →
      fill values (hole key ++ rest) = value ++ fill values rest → motive rest →
      motive (hole key ++ rest)) (t : Text) : motive t := by
  induction hn : t.length using Nat.strongRecOn generalizing t with
  | ind n ih =>
    cases t with
    | nil => exact nil
    | cons c t =>
      cases hopen : if c = '{' then holeAt? values t else none with
      | some found =>
        obtain ⟨value, size⟩ := found
        split at hopen
        next hc =>
          obtain ⟨key, rest, rfl, hk, hv⟩ := holeAt?_eq_some hopen
          have hhole : c :: (key ++ '}' :: rest) = hole key ++ rest := by simp [hole, hc]
          rw [hhole]
          refine filled key value rest hv (fill_hole hk hv) (ih rest.length ?_ rest rfl)
          simp [← hn]
          omega
        next => simp at hopen
      | none =>
        have hfill : fill values (c :: t) = c :: fill values t := by simp [fill, fillFrom, hopen]
        exact char c t hfill (ih t.length (by simp [← hn]) t rfl)

theorem fill_cons_of_ne (hc : c ≠ '{') : fill values (c :: t) = c :: fill values t := by
  simp [fill, fillFrom, hc]

theorem fill_append_of_not_mem (hx : '{' ∉ x) : fill values (x ++ t) = x ++ fill values t := by
  induction x with
  | nil => rfl
  | cons c x ih =>
    simp only [List.mem_cons, not_or] at hx
    rw [List.cons_append, fill_cons_of_ne (Ne.symm hx.1), ih hx.2]
    rfl

/-- The slashes in front of a template stay in front. -/
theorem isComment_fill (h : isComment t = true) : isComment (fill values t) = true := by
  obtain ⟨indent, rest, hi, rfl⟩ := isComment_iff_exists.mp h
  have hnot : '{' ∉ indent ++ "///".toList := by
    intro hm
    rcases List.mem_append.mp hm with hm | hm
    · exact absurd (hi _ hm) (by decide)
    · exact absurd hm (by decide)
  rw [← List.append_assoc, fill_append_of_not_mem hnot, List.append_assoc]
  exact isComment_iff_exists.mpr ⟨indent, _, hi, rfl⟩

/-- A template without line feeds whose lines are comments. -/
def Commenting (t : Text) : Prop :=
  '\n' ∉ t ∧ ∀ piece ∈ Text.splitOn (hole "nl") t, isComment piece = true

instance : Decidable (Commenting t) := inferInstanceAs (Decidable (_ ∧ _))

/-- A template whose lines are comments, those behind line feeds of its own included. -/
structure Lined (t : Text) : Prop where
  flowing : Flowing t
  pieces : ∀ piece ∈ Text.splitOn (hole "nl") t, isComment piece = true

theorem Commenting.lined (h : Commenting t) : Lined t := ⟨flowing_of_noFeed h.1, h.2⟩

theorem splitOnFrom_eq_splitOn (sep : Text) (n : Nat) (t : Text) :
    Text.splitOnFrom sep n t = Text.splitOn sep (t.drop n) := by
  induction n generalizing t with
  | zero => rfl
  | succ n ih =>
    cases t with
    | nil => rfl
    | cons c t => simpa [Text.splitOnFrom] using ih t

theorem splitOn_append {sep : Text} (hs : sep ≠ []) (t : Text) :
    Text.splitOn sep (sep ++ t) = [] :: Text.splitOn sep t := by
  cases sep with
  | nil => exact absurd rfl hs
  | cons d sep =>
    have := splitOnFrom_eq_splitOn (d :: sep) sep.length (sep ++ t)
    simpa [Text.splitOn, Text.splitOnFrom] using this

theorem splitOn_cons {sep : Text} (h : ¬ sep <+: c :: t) :
    Text.splitOn sep (c :: t) = (Text.splitOn sep t).modifyHead (c :: ·) := by
  simp [Text.splitOn, Text.splitOnFrom, h]

/-- The first piece of a text stands in front of it. -/
theorem splitOn_head {sep : Text} (hs : sep ≠ []) (t : Text) :
    ∃ piece pieces, Text.splitOn sep t = piece :: pieces ∧ piece <+: t := by
  induction t with
  | nil => exact ⟨[], [], rfl, List.nil_prefix⟩
  | cons c t ih =>
    by_cases h : sep <+: c :: t
    · obtain ⟨rest, hr⟩ := h
      exact ⟨[], _, hr ▸ splitOn_append hs rest, List.nil_prefix⟩
    · obtain ⟨piece, pieces, hp, hpre⟩ := ih
      exact ⟨c :: piece, pieces, by simp [splitOn_cons h, hp], by simpa using hpre⟩

theorem hole_ne_nil (key : Text) : hole key ≠ [] := by simp [hole]

/-- Holes do not overlap. -/
theorem hole_apart {y z : Text} (hk : '{' ∉ key) (hx : x ≠ [])
    (h : hole key ++ y = x ++ (hole key ++ z)) :
    ∃ x', x = hole key ++ x' ∧ y = x' ++ (hole key ++ z) := by
  rcases List.append_eq_append_iff.mp h with ⟨x', rfl, hy⟩ | ⟨y', hy, hz⟩
  · exact ⟨x', rfl, hy⟩
  · cases y' with
    | nil => exact ⟨[], by simpa using hy.symm, by simpa using hz.symm⟩
    | cons d y' =>
      -- the second hole would begin inside the first one
      obtain rfl : d = '{' := by
        simp only [hole, List.cons_append, List.cons.injEq] at hz
        exact hz.1.symm
      obtain ⟨c, x, rfl⟩ := List.exists_cons_of_ne_nil hx
      have hmem : '{' ∈ key ++ ['}'] := by
        have htail := congrArg List.tail hy
        simp only [hole, List.cons_append, List.tail_cons] at htail
        simp [htail]
      simp [hk] at hmem

/-- Behind every hole of a key a piece begins. -/
theorem isComment_behind_hole (hk : '{' ∉ key)
    (h : ∀ piece ∈ (Text.splitOn (hole key) t).tail, isComment piece = true) {a b : Text}
    (ht : t = a ++ (hole key ++ b)) : isComment b = true := by
  induction hn : t.length using Nat.strongRecOn generalizing t a with
  | ind n ih =>
    cases a with
    | nil =>
      obtain ⟨piece, pieces, hp, rest, hr⟩ := splitOn_head (hole_ne_nil key) b
      rw [← hr]
      apply isComment_append
      apply h
      rw [ht, List.nil_append, splitOn_append (hole_ne_nil key), hp]
      simp
    | cons c a =>
      rw [List.cons_append] at ht
      by_cases hs : hole key <+: c :: (a ++ (hole key ++ b))
      · obtain ⟨y, hy⟩ := hs
        obtain ⟨a', ha', rfl⟩ := hole_apart (x := c :: a) hk (by simp) hy
        have hlen : (a' ++ (hole key ++ b)).length < n := by
          rw [← hn, ht, ← hy]
          simp [hole]
          omega
        refine ih _ hlen (t := a' ++ (hole key ++ b)) (fun piece hp => h piece ?_) rfl rfl
        rw [ht, ← hy, splitOn_append (hole_ne_nil key)]
        exact List.mem_of_mem_tail hp
      · have hlen : (a ++ (hole key ++ b)).length < n := by
          rw [← hn, ht]
          simp
        refine ih _ hlen (t := a ++ (hole key ++ b)) (fun piece hp => h piece ?_) rfl rfl
        rw [ht, splitOn_cons hs]
        simpa using hp

/-- Values that keep the lines of a template comments: `nl` begins a further line, and the lines
of the others are comments. -/
def Values.Keep (br : LineBreak) (indent : Text) (values : Values) : Prop :=
  ∀ pair ∈ values, (pair.1 = "nl".toList → pair.2 = newline br.text indent) ∧
    (pair.1 ≠ "nl".toList → Flowing pair.2)

theorem flowing_newline {br : LineBreak} {indent : Text} (hi : ∀ c ∈ indent, isIndent c = true)
    (hc : isComment t = true) (ht : Flowing t) : Flowing (newline br.text indent ++ t) := by
  have hnot : '\n' ∉ indent := fun hm => absurd (hi _ hm) (by decide)
  rw [newline, List.append_assoc]
  apply flowing_break br (isComment_indent_append hi hc)
  exact flowing_append (flowing_of_noFeed hnot) ht

/-- A filled template has no other lines than comments, its first one perhaps apart. -/
theorem flowing_fill {br : LineBreak} {indent : Text} (hi : ∀ c ∈ indent, isIndent c = true)
    (hv : values.Keep br indent) (ht : Lined t) : Flowing (fill values t) := by
  obtain ⟨hflow, hpieces⟩ := ht
  have hnl : ∀ a b, t = a ++ (hole "nl".toList ++ b) → isComment b = true := fun a b hab =>
    isComment_behind_hole (by decide) (fun piece hp => hpieces piece (List.mem_of_mem_tail hp)) hab
  clear hpieces
  induction t using fill_induction values with
  | nil => exact flowing_of_noFeed (by simp [fill, fillFrom])
  | char c t hf ih =>
    have hrest : Flowing (fill values t) := by
      apply ih fun a b hab => hflow (c :: a) b (by simp [hab])
      intro a b hab
      exact hnl (c :: a) b (by simp [hab])
    rw [hf]
    by_cases hc : c = '\n'
    · subst hc
      exact flowing_feed (isComment_fill (hflow [] t rfl)) hrest
    · exact flowing_cons hc hrest
  | filled key value rest hl hf ih =>
    have hrest : Flowing (fill values rest) := by
      apply ih fun a b hab => hflow (hole key ++ a) b (by simp [hab])
      intro a b hab
      exact hnl (hole key ++ a) b (by simp [hab])
    obtain ⟨l₁, l₂, hmem, -⟩ := List.lookup_eq_some_iff.mp hl
    have hkeep := hv (key, value) (by simp [hmem])
    rw [hf]
    by_cases hkey : key = "nl".toList
    · have hc : isComment rest = true := hnl [] rest (by simp [hkey])
      rw [show value = newline br.text indent from hkeep.1 hkey]
      exact flowing_newline hi (isComment_fill hc) hrest
    · exact flowing_append (hkeep.2 hkey) hrest

end TripleSlash.Template
