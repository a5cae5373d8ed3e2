import TripleSlash.Files.Search
import TripleSlash.Proofs.Files.Spelled

/-! What a search spells. From a pattern that goes up nowhere, and has no wildcard that could find
the directory above, a search goes down by the names of nodes. What it finds begins like the pattern
and goes up nowhere either. -/
namespace TripleSlash

variable {d : Disk} {p q n t x y : Text} {ps : List Text} {absolute : Bool} {here : Location}

namespace Path

theorem pieces_cons (c : Char) (t : Text) :
    pieces (c :: t) = if c = '/' then [] :: pieces t else (pieces t).modifyHead (c :: ·) := by
  simp [pieces, Text.splitAtChars]

theorem pieces_ne_nil (t : Text) : pieces t ≠ [] := by
  induction t with
  | nil => simp [pieces, Text.splitAtChars]
  | cons c t ih =>
    rw [pieces_cons]
    split
    · simp
    · simpa using ih

theorem pieces_of_not_mem (h : '/' ∉ t) : pieces t = [t] := by
  induction t with
  | nil => rfl
  | cons c t ih =>
    rw [List.mem_cons, not_or] at h
    rw [pieces_cons, if_neg (Ne.symm h.1), ih h.2]
    rfl

theorem pieces_slash (x y : Text) : pieces (x ++ '/' :: y) = pieces x ++ pieces y := by
  induction x with
  | nil => rw [List.nil_append, pieces_cons, if_pos rfl]; rfl
  | cons c x ih =>
    rw [List.cons_append, pieces_cons, pieces_cons, ih]
    split
    · rfl
    · obtain ⟨piece, rest, hx⟩ := List.exists_cons_of_ne_nil (pieces_ne_nil x)
      rw [hx]
      rfl

theorem not_slash_of_mem_pieces (h : n ∈ pieces t) : '/' ∉ n := by
  induction t generalizing n with
  | nil =>
    obtain rfl : n = [] := by simpa [pieces, Text.splitAtChars] using h
    simp
  | cons c t ih =>
    rw [pieces_cons] at h
    obtain ⟨piece, rest, ht⟩ := List.exists_cons_of_ne_nil (pieces_ne_nil t)
    rw [ht] at h ih
    split at h
    · rcases List.mem_cons.mp h with rfl | h
      · simp
      · exact ih h
    next hc =>
      rcases List.mem_cons.mp h with rfl | h
      · rw [List.mem_cons, not_or]
        exact ⟨Ne.symm hc, ih (by simp)⟩
      · exact ih (by simp [h])

theorem front_slash (hx : x ≠ []) (y : Text) : front (x ++ '/' :: y) = front x := by
  obtain ⟨c, x, rfl⟩ := List.exists_cons_of_ne_nil hx
  have hhead : (pieces (c :: x) ++ pieces y).head? = (pieces (c :: x)).head? := by
    obtain ⟨piece, rest, hp⟩ := List.exists_cons_of_ne_nil (pieces_ne_nil (c :: x))
    rw [hp]
    rfl
  rw [front, front, pieces_slash, hhead]
  rfl

/-- A name behind a path is the last of its names, if it says something. -/
theorem join_eq (hp : p ≠ []) (hn : '/' ∉ n) :
    front (join p n) = front p ∧ names (join p n) = names p ++ [n].filter (Says ·) := by
  unfold join
  split
  next h =>
    have hlast : p.getLast? = some '/' := by simpa [hp] using h
    obtain ⟨x, rfl⟩ := List.getLast?_eq_some_iff.mp hlast
    have hempty : pieces [] = [[]] := rfl
    refine ⟨?_, ?_⟩
    · rw [List.append_assoc, List.singleton_append]
      cases x with
      | nil => rfl
      | cons c x => rw [front_slash (by simp), front_slash (by simp)]
    · rw [names, names, List.append_assoc, List.singleton_append, pieces_slash, pieces_slash,
        pieces_of_not_mem hn, hempty]
      simp [Says]
  next h =>
    refine ⟨front_slash hp n, ?_⟩
    rw [names, names, pieces_slash, pieces_of_not_mem hn, List.filter_append]

theorem goesUp_iff : GoesUp p ↔ "..".toList ∈ pieces p := by
  have hfront : Component.up ∉ front p := by
    unfold front
    split
    · simp
    · split <;> simp
  rw [GoesUp, components_eq, List.mem_append, or_iff_right hfront, List.mem_map]
  constructor
  · rintro ⟨n, hn, hup⟩
    by_cases hdots : n = "..".toList
    · exact hdots ▸ (List.mem_filter.mp hn).1
    · rw [component, if_neg hdots] at hup
      simp at hup
  · intro h
    exact ⟨_, List.mem_filter.mpr ⟨h, by decide⟩, by simp [component]⟩

/-- A path from which a search goes down: the directory where one is, or one that goes up nowhere
and begins as it should. -/
structure Leads (absolute : Bool) (p : Text) : Prop where
  nonempty : p ≠ []
  stays : ¬ GoesUp p
  begins : front p = (if absolute then [.root] else []) ∨ absolute = false ∧ components p = [.here]

theorem leads_join (h : Leads absolute p) (hhere : components p ≠ [.here]) (hn : '/' ∉ n)
    (hup : n ≠ "..".toList) : Leads absolute (join p n) := by
  obtain ⟨hfront, hnames⟩ := join_eq h.nonempty hn
  have hstart : front p = (if absolute then [.root] else []) :=
    h.begins.resolve_right fun hb => hhere hb.2
  refine ⟨?_, ?_, .inl (hfront.trans hstart)⟩
  · unfold join
    split <;> simp [h.nonempty]
  · intro hgoes
    apply h.stays
    rw [GoesUp, components_eq] at hgoes ⊢
    rw [hfront, hnames, List.map_append, ← List.append_assoc, List.mem_append] at hgoes
    refine hgoes.resolve_right fun hlast => ?_
    obtain ⟨m, hm, hcomponent⟩ := List.mem_map.mp hlast
    obtain rfl : m = n := List.mem_singleton.mp (List.mem_filter.mp hm).1
    rw [component, if_neg hup] at hcomponent
    simp at hcomponent

/-- A dot behind a path says nothing. -/
theorem leads_join_dot (h : Leads absolute p) : Leads absolute (join p ".".toList) := by
  obtain ⟨hfront, hnames⟩ := join_eq h.nonempty (n := ".".toList) (by decide)
  have hcomponents : components (join p ".".toList) = components p := by
    rw [components_eq, components_eq, hfront, hnames]
    simp [Says]
  refine ⟨?_, ?_, ?_⟩
  · unfold join
    split <;> simp [h.nonempty]
  · rw [GoesUp, hcomponents]
    exact h.stays
  · rw [hfront, hcomponents]
    exact h.begins

theorem leads_child (h : Leads absolute p) (hn : '/' ∉ n) (hup : n ≠ "..".toList)
    (hne : components p = [.here] → n ≠ []) : Leads absolute (child p n) := by
  unfold child
  split
  next hhere =>
    have hrelative : absolute = false := by
      rcases h.begins with hb | hb
      · cases absolute with
        | false => rfl
        | true => rw [components_eq, hb] at hhere; simp at hhere
      · exact hb.1
    have hpieces : pieces n = [n] := pieces_of_not_mem hn
    have habsolute : isAbsolute n = false := by
      cases n with
      | nil => rfl
      | cons c n =>
        have hc : c ≠ '/' := fun hc => hn (by simp [hc])
        simp [isAbsolute, hc]
    refine ⟨hne hhere, ?_, ?_⟩
    · rw [goesUp_iff, hpieces, List.mem_singleton]
      exact Ne.symm hup
    · by_cases hdot : n = ".".toList
      · right
        subst hdot
        exact ⟨hrelative, rfl⟩
      · left
        have hhead : [n].head? ≠ some ".".toList := fun hhead => hdot (Option.some.inj hhead)
        rw [front, habsolute, hpieces, if_neg (by decide), if_neg hhead, hrelative]
        rfl
  next hhere => exact leads_join h hhere hn hup

end Path

namespace Disk

open TripleSlash.Path

/-- Nodes have names that are names: nothing empty, no dots, no slashes. -/
def Wellnamed (d : Disk) : Prop :=
  ∀ node ∈ d.nodes, ∀ n ∈ node.1, Says n ∧ n ≠ "..".toList ∧ '/' ∉ n

theorem mem_below (h : ps ∈ d.below here) : ∃ node ∈ d.nodes, ps ⊆ node.1 := by
  obtain ⟨⟨loc, node⟩, hnode, hps⟩ := List.mem_filterMap.mp h
  dsimp only at hps
  split at hps
  · obtain rfl := Option.some.inj hps
    exact ⟨_, hnode, List.drop_subset _ _⟩
  · simp at hps

theorem leads_names (hp : Leads absolute p)
    (hps : ∀ n ∈ ps, Says n ∧ n ≠ "..".toList ∧ '/' ∉ n) : Leads absolute (ps.foldl child p) := by
  induction ps generalizing p with
  | nil => exact hp
  | cons n ps ih =>
    obtain ⟨hvoice, hup, hslash⟩ := hps n (by simp)
    exact ih (leads_child hp hslash hup fun _ => hvoice.1) fun m hm => hps m (by simp [hm])

theorem leads_descendants (hd : d.Wellnamed) (hp : Leads absolute p) (hq : q ∈ d.descendants p) :
    Leads absolute q := by
  unfold descendants at hq
  split at hq
  · obtain ⟨names, hnames, rfl⟩ := List.mem_map.mp hq
    obtain ⟨node, hnode, hsub⟩ := mem_below hnames
    exact leads_names hp fun n hn => hd node hnode n (hsub hn)
  · simp at hq

theorem leads_children (hd : d.Wellnamed) (hp : Leads absolute p) (hq : q ∈ d.children p) :
    Leads absolute q := by
  unfold children at hq
  split at hq
  · obtain ⟨names, hnames, rfl⟩ := List.mem_map.mp hq
    obtain ⟨node, hnode, hsub⟩ := mem_below (List.mem_filter.mp hnames).1
    exact leads_names hp fun n hn => hd node hnode n (hsub hn)
  · simp at hq

end Disk

namespace Wildcard

variable {tokens : List Token} {c : Component}

/-- Whether a part of a pattern finds the directory above. A wildcard finds it only behind a dot. -/
def Component.findsUp : Component → Bool
  | anyDepth => false
  | name tokens => tokens.head? = some (.char '.') && fits tokens "..".toList

/-- Whether a piece of a pattern finds the directory above. -/
def findsUp (piece : Text) : Bool := (component? piece).any Component.findsUp

theorem bracketAt?_eq_some {make : List Range → Token} {token : Token} {size : Nat}
    (h : bracketAt? make t = some (token, size)) : ∃ rs, token = make rs := by
  unfold bracketAt? at h
  split at h
  · dsimp only at h
    split at h
    · exact ⟨_, (congrArg Prod.fst (Option.some.inj h)).symm⟩
    · simp at h
  · simp at h

/-- The first token of a piece is a character only if the piece begins with it. -/
theorem parseFrom_cons {a : Char} (h : parseFrom 0 (a :: t) = some tokens) :
    (∃ rest, parseFrom 0 t = some rest ∧ tokens = .char a :: rest) ∨
      ∃ token rest, tokens = token :: rest ∧ ∀ b, token ≠ .char b := by
  unfold parseFrom at h
  split at h
  case h_1 =>
    obtain ⟨rest, -, rfl⟩ := Option.map_eq_some_iff.mp h
    exact .inr ⟨_, _, rfl, nofun⟩
  case h_2 =>
    split at h
    · simp at h
    · obtain ⟨rest, -, rfl⟩ := Option.map_eq_some_iff.mp h
      exact .inr ⟨_, _, rfl, nofun⟩
  case h_3 =>
    simp only at h
    split at h
    next token size hbracket =>
      obtain ⟨rest, -, rfl⟩ := Option.map_eq_some_iff.mp h
      refine .inr ⟨_, _, rfl, ?_⟩
      split at hbracket
      · obtain ⟨found, hfound, he⟩ := Option.map_eq_some_iff.mp hbracket
        obtain ⟨rs, hrs⟩ := bracketAt?_eq_some hfound
        obtain rfl : found.1 = token := congrArg Prod.fst he
        simp [hrs]
      · obtain ⟨rs, hrs⟩ := bracketAt?_eq_some hbracket
        simp [hrs]
    · simp at h
  case h_4 =>
    obtain ⟨rest, hrest, rfl⟩ := Option.map_eq_some_iff.mp h
    exact .inl ⟨rest, hrest, rfl⟩

theorem literal?_cons (a : Char) (tokens : List Token) :
    literal? (.char a :: tokens) = (literal? tokens).map (a :: ·) := by
  rw [literal?, literal?, List.mapM_cons, Option.map_eq_bind]
  rfl

theorem literal?_cons_of_ne {token : Token} (h : ∀ a, token ≠ .char a) (tokens : List Token) :
    literal? (token :: tokens) = none := by
  simp only [literal?, List.mapM_cons]
  cases token with
  | char a => exact absurd rfl (h a)
  | _ => rfl

/-- The only name that a piece finds is the piece. -/
theorem literal?_eq_some (h : parseFrom 0 t = some tokens) (hn : literal? tokens = some n) :
    n = t := by
  induction t generalizing tokens n with
  | nil =>
    obtain rfl : [] = tokens := by simpa [parseFrom] using h
    simpa [literal?, eq_comm] using hn
  | cons a t ih =>
    rcases parseFrom_cons h with ⟨rest, hrest, rfl⟩ | ⟨token, rest, rfl, hne⟩
    · rw [literal?_cons] at hn
      obtain ⟨m, hm, rfl⟩ := Option.map_eq_some_iff.mp hn
      rw [ih hrest hm]
    · simp [literal?_cons_of_ne hne] at hn

/-- A part of a pattern that goes down only. -/
structure Component.Tame (c : Component) : Prop where
  stays : c.findsUp = false
  literal : ∀ tokens n, c = name tokens → literal? tokens = some n → '/' ∉ n ∧ n ≠ "..".toList

theorem tame_of_component? (h : component? t = some c) (ht : '/' ∉ t) (hup : findsUp t = false) :
    c.Tame where
  stays := by simpa [findsUp, h] using hup
  literal tokens n hc hn := by
    subst hc
    have hparse : parseFrom 0 t = some tokens := by
      unfold component? at h
      split at h
      · simp at h
      · simpa using h
    obtain rfl := literal?_eq_some hparse hn
    refine ⟨ht, ?_⟩
    rintro rfl
    exact absurd hup (by decide)

end Wildcard

namespace Search

open TripleSlash.Path Wildcard

theorem exists?_nil : d.exists? [] = false := rfl

/-- Of the directories that are always there, a tame part finds only the one where one is. -/
theorem eq_of_mem_special {tokens : List Token} (h : (Component.name tokens).findsUp = false)
    (hq : q ∈ if tokens.head? = some (.char '.') then (dots.filter (fits tokens)).map (Path.join p)
      else []) : q = Path.join p ".".toList := by
  split at hq
  next hhead =>
    have hup : fits tokens "..".toList = false := by simpa [Component.findsUp, hhead] using h
    obtain ⟨n, hn, rfl⟩ := List.mem_map.mp hq
    obtain ⟨hdots, hfits⟩ := List.mem_filter.mp hn
    rcases List.mem_cons.mp hdots with rfl | hn
    · rfl
    · obtain rfl : n = "..".toList := by simpa using hn
      rw [hup] at hfits
      exact absurd hfits (by decide)
  next => simp at hq

theorem extend_name (d : Disk) (tokens : List Token) (rest : List Wildcard.Component) (p : Text) :
    extend d (.name tokens :: rest) p =
      match literal? tokens with
      | some n =>
        if if n ∈ dots then d.isDirectory p else d.exists? (child p n) then
          extend d rest (child p n)
        else []
      | none =>
        if d.isDirectory p then
          ((if tokens.head? = some (.char '.') then (dots.filter (fits tokens)).map (Path.join p)
            else []) ++
              (d.children p).filter fun q => (Path.fileName? q).any (fits tokens)).flatMap
            (extend d rest)
        else [] := rfl

/-- A search with tame parts goes down only. -/
theorem leads_extend (hd : d.Wellnamed) : ∀ {cs : List Wildcard.Component} {p q : Text},
    (∀ c ∈ cs, c.Tame) → Leads absolute p → q ∈ extend d cs p → Leads absolute q
  | [], p, q, _, hp, hq => by
    obtain rfl : q = p := List.mem_singleton.mp hq
    exact hp
  | [.anyDepth], p, q, _, hp, hq => by
    have hfound : q ∈ (d.descendants p).filter d.isDirectory := hq
    exact Disk.leads_descendants hd hp (List.mem_filter.mp hfound).1
  | .anyDepth :: .anyDepth :: rest, p, q, hcs, hp, hq => by
    have hfound : q ∈ extend d (.anyDepth :: rest) p := hq
    exact leads_extend hd (fun c hc => hcs c (List.mem_cons_of_mem _ hc)) hp hfound
  | .anyDepth :: .name tokens :: rest, p, q, hcs, hp, hq => by
    obtain ⟨r, hr, hfound⟩ := List.mem_flatMap.mp hq
    have hbelow := Disk.leads_descendants hd hp (List.mem_filter.mp hr).1
    exact leads_extend hd (fun c hc => hcs c (by simp [hc])) hbelow hfound
  | .name tokens :: rest, p, q, hcs, hp, hq => by
    obtain ⟨hstays, hliteral⟩ := hcs (.name tokens) (by simp)
    have hrest : ∀ c ∈ rest, c.Tame := fun c hc => hcs c (by simp [hc])
    rw [extend_name] at hq
    split at hq
    next n hn =>
      obtain ⟨hslash, hup⟩ := hliteral tokens n rfl hn
      by_cases hfound : (if n ∈ dots then d.isDirectory p else d.exists? (child p n)) = true
      · rw [if_pos hfound] at hq
        refine leads_extend hd hrest (leads_child hp hslash hup ?_) hq
        -- in the directory where one is, an empty name would be a path of its own
        rintro hhere rfl
        simp [dots, child, hhere, exists?_nil] at hfound
      · rw [if_neg hfound] at hq
        simp at hq
    next =>
      split at hq
      · obtain ⟨r, hr, hq⟩ := List.mem_flatMap.mp hq
        refine leads_extend hd hrest ?_ hq
        rcases List.mem_append.mp hr with hspecial | hnamed
        · rw [eq_of_mem_special hstays hspecial]
          exact leads_join_dot hp
        · exact Disk.leads_children hd hp (List.mem_filter.mp hnamed).1
      · simp at hq

end Search
end TripleSlash
