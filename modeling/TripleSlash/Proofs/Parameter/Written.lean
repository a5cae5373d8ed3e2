import TripleSlash.Proofs.Parameter.Balanced
import TripleSlash.Proofs.Parameter.Broken
import TripleSlash.Proofs.Text.Words

/-! Parameter lists as they are commonly written: modifiers, type and name with blanks between them,
perhaps a default value, and commas between the parameters. All parameters of such a list are read,
in their order. -/
namespace TripleSlash.Parameter

open Brackets

variable {t x y w : Text} {sep : Char → Bool} {ts : List Text}

/-- A modifier, an attribute, a type or a name. Its brackets are balanced, and outside of them
nothing separates it. -/
structure Token where
  text : Text
  ne : text ≠ []
  balanced : Balanced text
  whole : Whole separates text

/-- A default value. The brackets are closed at its end, and it has no comma outside of them; here a
bracket that closes nothing does not count. -/
structure Default where
  text : Text
  closed : depthAfter 0 text = 0
  whole : ∀ x y, text = x ++ ',' :: y → depthAfter 0 x ≠ 0

/-- A parameter as it is written. -/
structure Written where
  lead : Stretch isBlank
  modifiers : List (Token × Stretch1 isBlank)
  type : Token
  space : Stretch1 isBlank
  name : Token
  gap : Stretch isBlank
  default : Option Default

namespace Written

/-- The modifiers with the blanks behind them. -/
def modifierText (p : Written) : Text := p.modifiers.flatMap fun m => m.1.text ++ m.2.text

/-- What stands in front of the default value. -/
def front (p : Written) : Text :=
  p.lead.text ++ (p.modifierText ++ (p.type.text ++ (p.space.text ++ (p.name.text ++ p.gap.text))))

def text (p : Written) : Text := p.front ++ (p.default.map ('=' :: ·.text)).getD []

/-- The parameter that is written. -/
def parameter (p : Written) : Parameter := ⟨p.type.text, p.name.text⟩

end Written

/-- A list of parameters as it is written. Behind the last parameter there may be a comma, and a
list without parameters may have blanks. -/
structure WrittenList where
  lead : Stretch isBlank
  parameters : List Written
  last : Option (Stretch isBlank)

def WrittenList.text (l : WrittenList) : Text :=
  l.lead.text ++ ([','].intercalate (l.parameters.map Written.text) ++
    (l.last.map (',' :: ·.text)).getD [])

/-- A text is not cut at a comma where each of its commas stands in brackets. -/
theorem before_comma_iff : before (· == ',') 0 t = t ↔
    ∀ x y, t = x ++ ',' :: y → depthAfter 0 x ≠ 0 := by
  rw [before_eq_self_iff]
  constructor
  · intro h x y he hdepth
    have hcut := h x ',' y he
    rw [hdepth] at hcut
    exact absurd hcut (by decide)
  · intro h x c y he
    by_contra hne
    simp only [cuts, Bool.not_eq_false, Bool.and_eq_true, beq_iff_eq] at hne
    obtain ⟨⟨⟨hdepth, -⟩, -⟩, rfl⟩ := hne
    exact h x y he hdepth

/-- A character that goes on with a word. -/
def continues (c : Char) : Bool := !(isBlank c || c == '=')

theorem continues_of_isBlank (c : Char) (h : isBlank c = true) : continues c = false := by
  simp [continues, h]

theorem Token.uncut (k : Token) (hsep : ∀ c, sep c = true → separates c = true) :
    Uncut sep k.text := (k.balanced.uncut k.whole).mono hsep

/-- A word is a token of its own where no character goes on with it. -/
theorem tokens_token_append (k : Token) (hy : Text.Stops continues y) :
    tokens (k.text ++ y) = k.text :: tokens y := by
  have hdefault : Uncut (· == '=') k.text := k.uncut (by simp [separates])
  have hblank : Uncut isBlank k.text := k.uncut fun c hc => by simp [separates, hc]
  have hends : before isBlank 0 (before (· == '=') 0 y) = [] := by
    cases y with
    | nil => rfl
    | cons c y =>
      cases hc : isBlank c with
      | true =>
        obtain ⟨hopen, hclose⟩ := not_bracket_of_isBlank hc
        have hne : c ≠ '=' := by
          rintro rfl
          exact absurd hc (by decide)
        simp [before, cuts, hopen, hclose, hc, hne]
      | false =>
        obtain rfl : c = '=' := by simpa [continues, hc] using Text.stops_cons.mp hy
        rfl
  obtain ⟨pieces, hpieces⟩ := split_eq_cons isBlank 0 (before (· == '=') 0 y)
  rw [tokens, (append_of_before hdefault.whole y).1, hdefault.closed,
    (append_of_before hblank.whole _).2, hblank.closed, tokens, hpieces, hends]
  simp [k.ne]

theorem tokens_default (d : Option Default) :
    tokens ((d.map ('=' :: ·.text)).getD []) = [] := by
  cases d <;> rfl

namespace Written

theorem tokens_modifiers (ms : List (Token × Stretch1 isBlank)) (y : Text) :
    tokens ((ms.flatMap fun m => m.1.text ++ m.2.text) ++ y) = ms.map (·.1.text) ++ tokens y := by
  induction ms with
  | nil => rfl
  | cons m ms ih =>
    rw [List.flatMap_cons, List.append_assoc, List.append_assoc,
      tokens_token_append m.1 (m.2.stops continues_of_isBlank _),
      tokens_of_blank_append m.2.all, ih]
    rfl

theorem tokens_text (p : Written) :
    tokens p.text = p.modifiers.map (·.1.text) ++ [p.type.text, p.name.text] := by
  have hend : Text.Stops continues (p.gap.text ++ (p.default.map ('=' :: ·.text)).getD []) := by
    refine (p.gap.stops continues_of_isBlank).append ?_
    cases p.default with
    | none => exact Text.stops_nil
    | some d => exact Text.stops_cons.mpr (by decide)
  rw [text, front]
  simp only [List.append_assoc]
  rw [tokens_of_blank_append p.lead.all, modifierText, tokens_modifiers,
    tokens_token_append p.type (p.space.stops continues_of_isBlank _),
    tokens_of_blank_append p.space.all, tokens_token_append p.name hend,
    tokens_of_blank_append p.gap.all, tokens_default]

theorem parse?_text (p : Written) : parse? p.text = some p.parameter := by
  simp [parse?, tokens_text, parameter]

theorem uncut_blank_comma (x : Stretch isBlank) : Uncut (· == ',') x.text :=
  uncut_blank (by decide) x.all

theorem uncut_token (k : Token) : Uncut (· == ',') k.text := k.uncut (by simp [separates])

theorem uncut_modifiers (ms : List (Token × Stretch1 isBlank)) :
    Uncut (· == ',') (ms.flatMap fun m => m.1.text ++ m.2.text) := by
  induction ms with
  | nil => exact uncut_nil
  | cons m ms ih => exact ((uncut_token m.1).append (uncut_blank_comma m.2.toStretch)).append ih

theorem uncut_front (p : Written) : Uncut (· == ',') p.front :=
  (uncut_blank_comma p.lead).append ((uncut_modifiers p.modifiers).append
    ((uncut_token p.type).append ((uncut_blank_comma p.space.toStretch).append
      ((uncut_token p.name).append (uncut_blank_comma p.gap)))))

theorem uncut_default (d : Default) : Uncut (· == ',') ('=' :: d.text) where
  whole := congrArg ('=' :: ·) (before_comma_iff.mpr d.whole)
  closed := d.closed

theorem uncut_text (p : Written) : Uncut (· == ',') p.text := by
  refine p.uncut_front.append ?_
  cases p.default with
  | none => exact uncut_nil
  | some d => exact uncut_default d

/-- A parameter is read from its text. -/
theorem parseList_text (p : Written) : parseList p.text = [p.parameter] := by
  rw [parseList, split_of_before p.uncut_text.whole]
  simp [parse?_text]

end Written

/-- Behind texts that close their brackets a comma begins the next one. -/
theorem parseList_intercalate (h : ∀ t ∈ ts.dropLast, depthAfter 0 t = 0) :
    parseList ([','].intercalate ts) = ts.flatMap parseList := by
  induction ts with
  | nil => rfl
  | cons t ts ih =>
    cases ts with
    | nil => simp
    | cons u ts =>
      rw [List.dropLast_cons_cons, List.forall_mem_cons] at h
      rw [List.intercalate_cons_cons, List.append_assoc, List.singleton_append,
        parseList_comma h.1, ih h.2, ← List.flatMap_cons]

theorem depthAfter_intercalate (h : ∀ t ∈ ts, depthAfter 0 t = 0) :
    depthAfter 0 ([','].intercalate ts) = 0 := by
  induction ts with
  | nil => rfl
  | cons t ts ih =>
    rw [List.forall_mem_cons] at h
    cases ts with
    | nil => simpa using h.1
    | cons u ts =>
      rw [List.intercalate_cons_cons, depthAfter_append, depthAfter_append, h.1]
      exact ih h.2

/-- All parameters of a list are read, in their order and each of them once. -/
theorem parseList_written (l : WrittenList) :
    parseList l.text = l.parameters.map Written.parameter := by
  have hclosed : ∀ t ∈ l.parameters.map Written.text, depthAfter 0 t = 0 := by
    intro t ht
    obtain ⟨p, -, rfl⟩ := List.mem_map.mp ht
    exact p.uncut_text.closed
  have hlist : parseList ([','].intercalate (l.parameters.map Written.text)) =
      l.parameters.map Written.parameter := by
    rw [parseList_intercalate fun t ht => hclosed t (List.mem_of_mem_dropLast ht),
      List.flatMap_map, List.map_eq_flatMap]
    simp only [Written.parseList_text]
  rw [WrittenList.text, parseList_of_blank_append l.lead.all]
  cases l.last with
  | none => simpa using hlist
  | some g =>
    have hblank := parseList_of_blank_append (t := []) g.all
    rw [List.append_nil] at hblank
    rw [Option.map_some, Option.getD_some, parseList_comma (depthAfter_intercalate hclosed), hlist,
      hblank]
    exact List.append_nil _

/-- Two parameters and a comma behind them. The commas, blanks and equals signs in the brackets of
every kind separate nothing. -/
def spanList : WrittenList where
  lead := .empty
  parameters := [
    { lead := .blank
      modifiers := [(⟨"[In(1, 2), Out(X = 3)]", by decide, by decide, by decide⟩, .blank),
        (⟨"ref", by decide, by decide, by decide⟩, .of "\t " (by decide))]
      type := ⟨"Map<int, List<é>>?[,]", by decide, by decide, by decide⟩
      space := .of "\u3000" (by decide)
      name := ⟨"map", by decide, by decide, by decide⟩
      gap := .empty
      default := none },
    { lead := .blank
      modifiers := []
      type := ⟨"(int, T[])", by decide, by decide, by decide⟩
      space := .blank
      name := ⟨"span", by decide, by decide, by decide⟩
      gap := .blank
      default := some ⟨" (f(1, 2), [3, 4]) ", by decide, before_comma_iff.mp (by decide)⟩ }]
  last := some .blank

theorem parseList_written_span :
    spanList.text =
        " [In(1, 2), Out(X = 3)] ref\t Map<int, List<é>>?[,]\u3000map,".toList ++
          " (int, T[]) span = (f(1, 2), [3, 4]) , ".toList ∧
      parseList spanList.text = [⟨"Map<int, List<é>>?[,]", "map"⟩, ⟨"(int, T[])", "span"⟩] :=
  ⟨by decide +kernel, parseList_written spanList⟩

end TripleSlash.Parameter
