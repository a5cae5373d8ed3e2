import TripleSlash.Proofs.Declaration.Heads

/-! How written types are read. Their arguments close at the last bracket from which the rest of the
line can be read. -/
namespace TripleSlash.Shape

open Pattern Canonical

variable {ok : Text → Bool} {accepts : Char → Bool} {c : Char} {x y t : Text}

/-- A dotted name is read up to the first character that cannot go on with it. -/
theorem read?_dotted (d : Dotted) (hword : Text.Stops isWord y) (hdot : Text.Stops (· == '.') y) :
    (seq name (star (seq (text ".") name)) : LinePattern).read? (d.text ++ y) = some ⟨[], y⟩ := by
  have hmore : ∀ ns : List Name, Text.Stops isWord (ns.flatMap ('.' :: ·.text) ++ y) ∧
      (star (seq (text ".") name) : LinePattern).read? (ns.flatMap ('.' :: ·.text) ++ y) =
        some ⟨[], y⟩ := by
    intro ns
    induction ns with
    | nil =>
      refine ⟨hword, read?_star_none (readings_seq_eq_nil fun m hm => ?_)⟩
      simp [readings_text_eq_nil (c := '.') (x := []) hdot] at hm
    | cons n ns ih =>
      refine ⟨by rw [List.flatMap_cons, List.append_assoc, List.cons_append]; simp; decide, ?_⟩
      have hone : (seq (text ".") name : LinePattern).read?
          ('.' :: (n.text ++ (ns.flatMap ('.' :: ·.text) ++ y))) =
            some ⟨[], ns.flatMap ('.' :: ·.text) ++ y⟩ :=
        read?_seq (read?_text ['.'] _) (read?_run1 n.toStretch1 ih.1)
      rw [List.flatMap_cons, List.append_assoc, List.cons_append]
      exact read?_star (by decide) hone ih.2
  obtain ⟨hstop, hread⟩ := hmore d.more
  rw [Dotted.text, List.append_assoc]
  exact read?_seq (read?_run1 d.first.toStretch1 hstop) hread

/-- No closing bracket that is reached over characters of a class leaves a text of a kind. -/
def NoClose (accepts : Char → Bool) (ok : Text → Bool) (t : Text) : Prop :=
  ∀ u v, t = u ++ '>' :: v → (∀ c ∈ u, accepts c = true) → ok v = false

theorem noClose_nil : NoClose accepts ok [] := by
  intro u v h
  simp at h

theorem noClose_stop (hc : accepts c = false) (hne : c ≠ '>') (t : Text) :
    NoClose accepts ok (c :: t) := by
  intro u v h hu
  cases u with
  | nil => exact absurd (List.cons.inj h).1 hne
  | cons d u =>
    obtain ⟨rfl, -⟩ := List.cons.inj h
    simp [hu c (by simp)] at hc

theorem noClose_append (hx : '>' ∉ x) (ht : NoClose accepts ok t) :
    NoClose accepts ok (x ++ t) := by
  intro u v h hu
  induction x generalizing u with
  | nil => exact ht u v h hu
  | cons c x ih =>
    simp only [List.mem_cons, not_or] at hx
    cases u with
    | nil => exact absurd (List.cons.inj h).1.symm hx.1
    | cons d u => exact ih hx.2 u (List.cons.inj h).2 fun c hc => hu c (by simp [hc])

theorem noClose_close (h : ok t = false) (ht : NoClose accepts ok t) :
    NoClose accepts ok ('>' :: t) := by
  intro u v he hu
  cases u with
  | nil =>
    obtain ⟨-, rfl⟩ := List.cons.inj he
    exact h
  | cons d u => exact ht u v (List.cons.inj he).2 fun c hc => hu c (by simp [hc])

/-- Brackets close where the rest can be read, if no later bracket can be used for that. -/
theorem picks_angled (x : Stretch accepts) (hy : ok y = true) (hlast : NoClose accepts ok y) :
    Picks (angled accepts) ok ('<' :: (x.text ++ ['>'])) y [] := by
  have hclose : Picks (seq (text ">") done : LinePattern) ok (['>'] ++ []) y [] :=
    picks_skip (read?_text ['>'] y) (picks_done hy)
  have hstar : Picks (star (one accepts) : LinePattern)
      ((seq (text ">") done : LinePattern).leaves ok) x.text ('>' :: y) [] := by
    refine picks_star_one x.all (leaves_of_picks hclose) fun u v he hne hu => ?_
    rw [leaves, List.any_eq_false]
    intro m hm
    obtain ⟨m₁, h₁, m₂, h₂, rfl⟩ := mem_seq hm
    obtain rfl : m₂ = ⟨[], m₁.rest⟩ := by simpa [readings] using h₂
    cases u with
    | nil => exact absurd rfl hne
    | cons d u =>
      obtain ⟨-, rfl⟩ := List.cons.inj he
      have hv : v = '>' :: m₁.rest := mem_text h₁
      simpa [Reading.after] using
        hlast u m₁.rest (by rw [hv]; rfl) fun c hc => hu c (List.mem_cons_of_mem d hc)
  have hrest : Picks (seq (star (one accepts)) (seq (text ">") done) : LinePattern) ok
      (x.text ++ ['>']) y [] := picks_seq hstar hclose
  exact picks_skip (x := ['<']) (read?_text ['<'] _) hrest

/-- Brackets whose text has no closing bracket. -/
theorem read?_angledFlat (x : Stretch accepts) (hclose : accepts '>' = false) (y : Text) :
    (angledFlat accepts).read? ('<' :: (x.text ++ '>' :: y)) = some ⟨[], y⟩ := by
  have hstop : Text.Stops accepts ('>' :: y) := Text.stops_cons.mpr hclose
  exact read?_skip (read?_text ['<'] _)
    (read?_skip (read?_run x.all hstop) (read?_skip (read?_text ['>'] y) (read?_done y)))

/-- The marks of null and ranks behind a type. -/
def marks : LinePattern := all [opt (text "?"), star rank, opt (text "?")]

/-- The arguments of a type, if it has any. -/
def arguments : LinePattern := opt (part .generic (angled isTypeArgument))

theorem type_eq : type = part .type
    (seq (part .base (seq name (star (seq (text ".") name)))) (seq arguments marks)) := rfl

/-- A character with which marks and ranks begin. -/
def isMark (c : Char) : Bool := c == '?' || c == '['

theorem isMark_eq_false_of_isBlank (c : Char) (h : isBlank c = true) : isMark c = false := by
  simp [isMark, beq_eq_false_of_class h (d := '?') (by decide),
    beq_eq_false_of_class h (d := '[') (by decide)]

theorem read?_mark (present : Bool) (hy : present = false → Text.Stops (· == '?') y) :
    (opt (text "?") : LinePattern).read? (mark present ++ y) = some ⟨[], y⟩ := by
  cases present with
  | true => exact read?_opt (read?_text ['?'] y)
  | false => exact read?_opt_none (readings_text_eq_nil (hy rfl))

theorem read?_rank (r : Stretch isRank) (y : Text) :
    rank.read? ('[' :: (r.text ++ ']' :: y)) = some ⟨[], y⟩ := by
  have hstop : Text.Stops isRank (']' :: y) := Text.stops_cons.mpr (by decide)
  exact read?_skip (read?_text ['['] _)
    (read?_skip (read?_run r.all hstop) (read?_skip (read?_text [']'] y) (read?_done y)))

theorem readings_rank_eq_nil (ht : Text.Stops (· == '[') t) : rank.readings t = [] := by
  refine readings_seq_eq_nil fun m hm => ?_
  simp [readings_text_eq_nil (c := '[') (x := []) ht] at hm

theorem read?_ranks (rs : List (Stretch isRank)) (hy : Text.Stops (· == '[') y) :
    (star rank).read? (rankText rs ++ y) = some ⟨[], y⟩ := by
  induction rs with
  | nil => exact read?_star_none (readings_rank_eq_nil hy)
  | cons r rs ih =>
    have hone := read?_rank r (rankText rs ++ y)
    have hcons : rankText (r :: rs) ++ y = '[' :: (r.text ++ ']' :: (rankText rs ++ y)) := by
      simp [rankText]
    rw [hcons]
    exact read?_star (by decide) hone ih

theorem stops_isMark :
    Text.Stops isMark t ↔ Text.Stops (· == '?') t ∧ Text.Stops (· == '[') t := by
  cases t with
  | nil => simp
  | cons c t => simp [isMark]

/-- Marks and ranks are read up to a character with which none begins. -/
theorem read?_marks (t : TypeText) (hy : Text.Stops isMark y) :
    marks.read? (t.marks ++ y) = some ⟨[], y⟩ := by
  obtain ⟨hmark, hrank⟩ := stops_isMark.mp hy
  have hread : ∀ a rs b, (a = false → Text.Stops (· == '?') (rankText rs ++ (mark b ++ y))) →
      marks.read? (mark a ++ (rankText rs ++ (mark b ++ y))) = some ⟨[], y⟩ := by
    intro a rs b ha
    have hb : Text.Stops (· == '[') (mark b ++ y) := by
      cases b with
      | true => exact Text.stops_cons.mpr (by decide)
      | false => exact hrank
    exact read?_skip (read?_mark a ha) (read?_skip (read?_ranks rs hb)
      (read?_skip (read?_mark b fun _ => hmark) (read?_done y)))
  rw [TypeText.marks, List.append_assoc, List.append_assoc]
  cases hn : t.nullable with
  | true => exact hread true t.ranks t.nullableRanks (by simp)
  | false =>
    cases hr : t.ranks with
    | nil =>
      -- Without a rank the one mark of null is read as the first.
      exact hread t.nullableRanks [] false fun _ => hmark
    | cons r rs =>
      exact hread false (r :: rs) t.nullableRanks fun _ => Text.stops_cons.mpr (by decide)

/-- In front of a character with which none begins there are no marks and no ranks. -/
theorem readings_marks (ht : Text.Stops isMark t) : marks.readings t = [⟨[], t⟩] := by
  obtain ⟨hmark, hrank⟩ := stops_isMark.mp ht
  have hopt : (opt (text "?") : LinePattern).readings t = [⟨[], t⟩] :=
    readings_opt_none (readings_text_eq_nil hmark)
  have hstar := readings_star_none (readings_rank_eq_nil hrank)
  rw [marks, all, List.foldr, readings_skip hopt, List.foldr, readings_skip hstar, List.foldr,
    readings_skip hopt]
  rfl

theorem marks_leaves (ht : Text.Stops isMark t) : marks.leaves ok t = ok t := by
  simp [leaves, readings_marks ht]

theorem readings_arguments (ht : Text.Stops (· == '<') t) : arguments.readings t = [⟨[], t⟩] := by
  have hangled : (angled isTypeArgument).readings t = [] := readings_seq_eq_nil fun m hm => by
    simp [readings_text_eq_nil (c := '<') (x := []) ht] at hm
  exact readings_opt_none (by simp [readings, hangled])

/-- What is captured of a type. -/
def typeParts (t : TypeText) : List (Part × Text) :=
  (.type, t.text) :: (.base, t.base.text) :: (t.ref.generic.map (Part.generic, ·)).toList

theorem picks_arguments (x : Option (Stretch isTypeArgument)) (hy : ok y = true)
    (hstop : Text.Stops (· == '<') y) (hlast : NoClose isTypeArgument ok y) :
    Picks arguments ok (angles x) y
      ((x.map fun x => '<' :: (x.text ++ ['>'])).map (Part.generic, ·)).toList := by
  cases x with
  | none =>
    have hread : arguments.read? y = some ⟨[], y⟩ := by
      rw [read?, readings_arguments hstop]
      rfl
    exact picks_of_read? hread hy
  | some x => exact picks_opt (picks_part (picks_angled x hy hlast) _)

/-- A type is read whole where no closing bracket behind it fits the rest of the line. -/
theorem picks_type (t : TypeText) (g : Stretch1 isBlank) (hy : ok (g.text ++ y) = true)
    (hlast : NoClose isTypeArgument (marks.leaves ok) (g.text ++ y)) :
    Picks type ok t.text (g.text ++ y) (typeParts t) := by
  have hmarks : Picks marks ok t.marks (g.text ++ y) [] :=
    picks_of_read? (read?_marks t (g.stops isMark_eq_false_of_isBlank y)) hy
  have harguments := picks_arguments t.arguments (leaves_of_picks hmarks)
    ((t.stops_marks (by decide) (by decide)).append (g.stops_ne (by decide) y))
    (noClose_append t.not_close_marks hlast)
  have hbase : (part .base (seq name (star (seq (text ".") name)))).read?
      (t.base.text ++ ((angles t.arguments ++ t.marks) ++ (g.text ++ y))) =
        some ⟨[(.base, t.base.text)], (angles t.arguments ++ t.marks) ++ (g.text ++ y)⟩ := by
    refine read?_part (read?_dotted t.base ?_ ?_) .base
    · exact ((stops_angles (by decide) _).append (t.stops_marks (by decide) (by decide))).append
        (g.stops isWord_eq_false_of_isBlank y)
    · exact ((stops_angles (by decide) _).append (t.stops_marks (by decide) (by decide))).append
        (g.stops_ne (by decide) y)
  have h := picks_part (picks_then hbase (picks_seq harguments hmarks)) Part.type
  rw [type_eq]
  simpa [TypeText.text, typeParts, TypeText.ref] using h

end TripleSlash.Shape
