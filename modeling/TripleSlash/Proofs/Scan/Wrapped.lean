import TripleSlash.Proofs.Comment.Spliced
import TripleSlash.Proofs.Parameter.Broken
import TripleSlash.Proofs.Scan.Outline

/-! A parameter list on several lines and the same list on one line. A pass reads the part of the
list on each line on its own, so both get the same comment where the parts list what the whole list
does. -/
namespace TripleSlash.Scan

open Comment Template

variable {o : Options} {s : State} {j n : Nat} {line last t : Text} {init : List Text}
  {d : Declaration} {p : Pending}

/-- A declaration whose parameter list goes on over some lines and closes in the last of them. -/
structure Wrapped (line : Text) (d : Declaration) (init : List Text) (last : Text) : Prop where
  declared : Declaration.recognize? line = some d
  isOpen : d.isOpen = true
  stays : StaysOpen d init
  closes : Closes d (init ++ [last])

/-- What each of the lines below has of the parameter list. -/
def listLines (d : Declaration) (init : List Text) (last : Text) : List Text :=
  init ++ [Parens.inside (depthBehind d init) last]

/-- The comment behind a list, made of the entries of its lines. -/
theorem editsFrom_commented (hl : s.openList = some (.commented p))
    (hc : ∀ x ∈ init ++ [last], isComment x = false)
    (hstays : Parens.closes p.depth init.flatten = false)
    (hcloses : Parens.closes (Parens.depthAfter p.depth init.flatten) last = true) :
    editsFrom o s j (init ++ [last]) = [.insert p.insertAt (Text.replaceFirst marker
      (p.entries ++ (init ++ [Parens.inside (Parens.depthAfter p.depth init.flatten) last]).flatMap
        (parameterEntries o.templates p.newline)) p.head)] := by
  induction init generalizing s j p with
  | nil =>
    have hstep : step o s j last = onListLine o s last (.commented p) := by
      simp [step, hc last (by simp), hl]
    have hfinish : p.finish? o.templates last = some (p.accept o.templates last).assembled :=
      finish?_of_closes hcloses
    rw [List.nil_append, editsFrom, hstep, onListLine, hfinish]
    simp [editsFrom, Pending.accept, Pending.assembled, Parens.depthAfter, Parens.scan]
  | cons x init ih =>
    have hx := Parens.not_closes_of_append hstays
    obtain ⟨hclose, hdepth, -⟩ := Parens.append_of_not_closes (y := init.flatten) hx
    rw [List.flatten_cons, hclose] at hstays
    rw [List.flatten_cons, hdepth] at hcloses
    have hstep : step o s j x = onListLine o s x (.commented p) := by
      simp [step, hc x (by simp), hl]
    have hfinish : p.finish? o.templates x = none := finish?_of_not_closes hx
    rw [List.cons_append, editsFrom, hstep, onListLine, hfinish]
    have hrest := ih (s := { s with openList := some (.commented (p.accept o.templates x)) })
      (j := j + 1) rfl (fun y hy => hc y (by simp [hy])) hstays hcloses
    rw [hrest]
    simp [Pending.accept, Parens.inside_of_not_closes hx, hdepth]

/-- A list whose declaration gets no comment leaves no edits. -/
theorem editsFrom_bare (hl : s.openList = some (.bare n))
    (hc : ∀ x ∈ init ++ [last], isComment x = false)
    (hstays : Parens.closes n init.flatten = false) : editsFrom o s j (init ++ [last]) = [] := by
  have hnone : ∀ {s n j x}, isComment x = false → s.openList = some (.bare n) →
      (step o s j x).edits = [] := by
    intro s n j x hx hl
    simp only [step, hx, hl, onListLine]
    cases Parens.scan n x <;> rfl
  induction init generalizing s j n with
  | nil => simp [editsFrom, hnone (hc last (by simp)) hl]
  | cons x init ih =>
    have hx := Parens.not_closes_of_append hstays
    obtain ⟨hclose, -, -⟩ := Parens.append_of_not_closes (y := init.flatten) hx
    rw [List.flatten_cons, hclose] at hstays
    have hcx := hc x (by simp)
    obtain ⟨-, b, hstate, hdepth, hbare⟩ :=
      step_of_not_closes (o := o) (i := j) (a := .bare n) hcx hl hx
    have hb : b = .bare (Parens.depthAfter n x) := by rw [OpenList.eq_bare hbare, hdepth]; rfl
    rw [List.cons_append, editsFrom, hnone hcx hl, List.nil_append, hstate]
    exact ih (by rw [hb]) (fun y hy => hc y (by simp [hy])) hstays

namespace Wrapped

variable (h : Wrapped line d init last)
include h

/-- The edits of a wrapped declaration: its comment, if it gets one, with the entries of all the
lines below in the place of the marker. -/
theorem editsFrom_lines (hl : s.openList = none) :
    editsFrom o s j (line :: (init ++ [last])) = (comment? o s d).toList.map fun head =>
      .insert (s.attributesAt.getD j) (Text.replaceFirst marker ((listLines d init last).flatMap
        (parameterEntries o.templates (newline o.lineBreak d.indent))) head) := by
  obtain ⟨hc, ha⟩ := Declaration.not_comment_of_recognize? h.declared
  obtain ⟨x, -, -, -, hopen⟩ := Declaration.open_parameters h.declared h.isOpen
  obtain ⟨hstays, hdepth, -⟩ := Parens.append_of_not_closes (y := init.flatten) hopen
  rw [h.stays.2] at hstays
  have hcloses : Parens.closes (depthBehind d init) last = true := by
    have hlast := h.closes.1 last (by simp)
    exact (h.stays.append hlast).1.mp h.closes
  rw [editsFrom, step_of_declaration hc hl ha h.declared, onDeclaration, h.isOpen]
  cases ht : comment? o s d with
  | none => exact editsFrom_bare rfl h.closes.1 hstays.symm
  | some head =>
    rw [depthBehind, hdepth] at hcloses
    refine (editsFrom_commented rfl h.closes.1 hstays.symm hcloses).trans ?_
    simp [Pending.start, listLines, depthBehind, hdepth]

theorem recognize?_joined : Declaration.recognize? (line ++ (init ++ [last]).flatten) =
    some (d.withParameters ⟨(d.rawParameters :: listLines d init last).flatten, true⟩) := by
  obtain ⟨-, -, hinside⟩ := Parens.append_of_not_closes (y := last) h.stays.2
  have htext : d.rawParameters ++ (init ++ [last]).flatten =
      d.rawParameters ++ init.flatten ++ last := by simp
  have hcloses := h.closes.2
  rw [Declaration.recognize?_append h.declared h.isOpen, Declaration.parametersAt, hcloses, htext,
    hinside]
  simp [listLines, depthBehind]

/-- The edits of the same declaration on one line. -/
theorem editsFrom_joined (hl : s.openList = none) :
    editsFrom o s j [line ++ (init ++ [last]).flatten] = (comment? o s (d.withParameters
      ⟨(d.rawParameters :: listLines d init last).flatten, true⟩)).toList.map
        (.insert (s.attributesAt.getD j)) := by
  obtain ⟨hc, ha⟩ := Declaration.not_comment_of_recognize? h.recognize?_joined
  rw [editsFrom, step_of_declaration hc hl ha h.recognize?_joined, onDeclaration,
    Declaration.isOpen_withParameters]
  cases comment? o s _ <;> rfl

/-- Where the lines of a list have the same entries as the whole list, it does not matter to a
comment how the list is wrapped. -/
theorem editsFrom_eq_joined (hts : o.templates.Known) (hsingle : o.templates.Single)
    (hlb : '{' ∉ o.lineBreak) (hl : s.openList = none)
    (hraw : '{' ∉ parameterEntries o.templates (newline o.lineBreak d.indent) d.rawParameters)
    (hentries : parameterEntries o.templates (newline o.lineBreak d.indent)
        (d.rawParameters :: listLines d init last).flatten =
      (d.rawParameters :: listLines d init last).flatMap
        (parameterEntries o.templates (newline o.lineBreak d.indent))) :
    editsFrom o s j (line :: (init ++ [last])) =
        editsFrom o s j [line ++ (init ++ [last]).flatten] ∧
      (o.documented.contains d.access = true → ¬ (o.mode = .fillMissing ∧ s.afterComment) →
        ∃ text, editsFrom o s j (line :: (init ++ [last])) =
          [.insert (s.attributesAt.getD j) text]) := by
  obtain ⟨head, hhead, hwhole⟩ := render?_spliced hts hsingle hlb
    (Declaration.unbraced_of_recognize? h.declared) h.isOpen hraw
    (hentries.trans List.flatMap_cons)
  rw [h.editsFrom_lines hl, h.editsFrom_joined hl]
  simp only [comment?, hhead, hwhole, Declaration.access_withParameters]
  constructor
  · split
    · rfl
    · split <;> rfl
  · intro hd hm
    rw [if_neg hm, if_pos hd]
    exact ⟨_, rfl⟩

end Wrapped

/-- Where each line of a list ends at a comma outside of all brackets, a wrapped declaration gets
the comment that it gets on one line. -/
theorem edits_wrapped (h : Wrapped line d init last) (hts : o.templates.Known)
    (hsingle : o.templates.Single) (hlb : '{' ∉ o.lineBreak) (hraw : '{' ∉ d.rawParameters)
    (hends : ∀ x ∈ d.rawParameters :: init, Parameter.Ends x) :
    edits o (line :: (init ++ [last])) = edits o [line ++ (init ++ [last]).flatten] ∧
      (o.documented.contains d.access = true →
        ∃ text, edits o (line :: (init ++ [last])) = [.insert 0 text]) := by
  have hnl := not_brace_newline hlb (Declaration.unbraced_of_recognize? h.declared)
  have hlist := Parameter.parseList_flatten hends (Parens.inside (depthBehind d init) last)
  rw [edits_eq_editsFrom, edits_eq_editsFrom]
  have hedits := h.editsFrom_eq_joined (s := .neutral) (j := 0) hts hsingle hlb rfl
    (not_brace_parameterEntries hts hnl hraw) (by
      rw [parameterEntries, listLines, ← List.cons_append, hlist, List.flatMap_assoc]
      rfl)
  exact ⟨hedits.1, fun hd => hedits.2 hd (by simp [State.neutral])⟩

/-- The stock templates, with comments for what can be seen from outside. -/
def plain : Options := ⟨.stock, .visible, .fillMissing, LineBreak.lf.text⟩

/-- A method with a comma in an attribute of its first parameter. -/
def sumLine : Text := "public int Sum([Range(1, 10)] int first,"

def sumMethod : Declaration := ⟨[], .pub, "Sum", .method false false ⟨"int", "int", none⟩
  ⟨"[Range(1, 10)] int first,", false⟩⟩

/-- A blank line, and a parameter with commas in its type and in its default value. -/
def sumInit : List Text := ["", "    Func<int, int> second = f(2, 3),  "]

def sumLast : Text := "    string third) => first;"

theorem edits_wrapped_sum : Wrapped sumLine sumMethod sumInit sumLast ∧
    (∀ x ∈ sumMethod.rawParameters :: sumInit, Parameter.Ends x) ∧
    edits plain (sumLine :: (sumInit ++ [sumLast])) =
      edits plain [sumLine ++ (sumInit ++ [sumLast]).flatten] ∧
    ∃ text, edits plain (sumLine :: (sumInit ++ [sumLast])) = [.insert 0 text] := by
  have hwrapped : Wrapped sumLine sumMethod sumInit sumLast :=
    ⟨by decide +kernel, rfl, ⟨by decide +kernel, by decide +kernel⟩,
      ⟨by decide +kernel, by decide +kernel⟩⟩
  have hfirst : Parameter.Ends "[Range(1, 10)] int first," :=
    .inr ⟨"[Range(1, 10)] int first", [], by decide, by decide, by simp⟩
  have hsecond : Parameter.Ends "    Func<int, int> second = f(2, 3),  " :=
    .inr ⟨"    Func<int, int> second = f(2, 3)", "  ", by decide, by decide,
      List.all_eq_true.mp (by decide)⟩
  have hends : ∀ x ∈ sumMethod.rawParameters :: sumInit, Parameter.Ends x :=
    List.forall_mem_cons.mpr ⟨hfirst, List.forall_mem_cons.mpr
      ⟨Parameter.ends_nil, List.forall_mem_singleton.mpr hsecond⟩⟩
  have hsame := edits_wrapped (o := plain) hwrapped Templates.stock_known Templates.stock_single
    (by decide) (by decide) hends
  exact ⟨hwrapped, hends, hsame.1, hsame.2 rfl⟩

/-- The stock template of a parameter says its name only. -/
theorem parameterEntries_stock {nl : Text} : parameterEntries .stock nl t =
    (Parameter.names t).flatMap fun name => parameterEntry .stock nl ⟨[], name⟩ := by
  rw [Parameter.names, List.flatMap_map]
  rfl

/-- With the stock templates a list may also be wrapped inside the brackets of the first word of a
parameter, where the arguments that stand there look like no parameters. -/
theorem edits_broken (h : Wrapped line d init last) (ht : o.templates = .stock)
    (hlb : '{' ∉ o.lineBreak) (hnames : ∀ name ∈ Parameter.names d.rawParameters, '{' ∉ name)
    (hbreaks : Parameter.Breaks (d.rawParameters :: listLines d init last)) :
    edits o (line :: (init ++ [last])) = edits o [line ++ (init ++ [last]).flatten] ∧
      (o.documented.contains d.access = true →
        ∃ text, edits o (line :: (init ++ [last])) = [.insert 0 text]) := by
  have hnl := not_brace_newline hlb (Declaration.unbraced_of_recognize? h.declared)
  have hraw : '{' ∉ parameterEntries o.templates (newline o.lineBreak d.indent)
      d.rawParameters := by
    rw [ht, parameterEntries_stock]
    intro hm
    obtain ⟨name, hname, hm⟩ := List.mem_flatMap.mp hm
    exact not_brace_parameterEntry Templates.stock_known hnl (by simp) (hnames name hname) hm
  have hentries : parameterEntries o.templates (newline o.lineBreak d.indent)
        (d.rawParameters :: listLines d init last).flatten =
      (d.rawParameters :: listLines d init last).flatMap
        (parameterEntries o.templates (newline o.lineBreak d.indent)) := by
    rw [ht, parameterEntries_stock, Parameter.names_flatten hbreaks, List.flatMap_assoc]
    exact congrArg (List.flatMap · _) (funext fun t => parameterEntries_stock.symm)
  rw [edits_eq_editsFrom, edits_eq_editsFrom]
  have hedits := h.editsFrom_eq_joined (s := .neutral) (j := 0) (ht ▸ Templates.stock_known)
    (ht ▸ Templates.stock_single) hlb rfl hraw hentries
  exact ⟨hedits.1, fun hd => hedits.2 hd (by simp [State.neutral])⟩

/-- A method with a break in an attribute of its second parameter. -/
def setLine : Text := "public void Set(string text, [Range(1,"

def setMethod : Declaration := ⟨[], .pub, "Set", .method false false ⟨"void", "void", none⟩
  ⟨"string text, [Range(1,", false⟩⟩

def setLast : Text := "    10)] int level);"

theorem edits_broken_attribute : Wrapped setLine setMethod [] setLast ∧
    Parameter.Breaks (setMethod.rawParameters :: listLines setMethod [] setLast) ∧
    edits plain [setLine, setLast] = edits plain [setLine ++ setLast] ∧
    ∃ text, edits plain [setLine, setLast] = [.insert 0 text] := by
  have hwrapped : Wrapped setLine setMethod [] setLast :=
    ⟨by decide +kernel, rfl, ⟨by simp, by decide +kernel⟩, ⟨by decide +kernel, by decide +kernel⟩⟩
  have hends : Parameter.Ends "string text, " :=
    .inr ⟨"string text", " ", by decide, by decide, List.all_eq_true.mp (by decide)⟩
  have hword : Parameter.Word "[Range(1," "" "    10)]" :=
    ⟨by decide, by decide, by decide, ⟨Parameter.ends_nil, by decide⟩, by decide⟩
  have hgoes : Parameter.Goes " int level" := ⟨"level", by decide +kernel, by decide⟩
  have hlast : listLines setMethod [] setLast = ["    10)] int level"] := by decide +kernel
  have hbreaks : Parameter.Breaks (setMethod.rawParameters :: listLines setMethod [] setLast) := by
    rw [hlast]
    exact ⟨.inr ⟨"string text, ", _, _, _, _, by decide, by decide, hends, hword, hgoes⟩, trivial⟩
  have hsame := edits_broken (o := plain) hwrapped rfl (by decide) (by decide +kernel) hbreaks
  exact ⟨hwrapped, hbreaks, hsame.1, hsame.2 rfl⟩

/-- Elsewhere a break inside of brackets loses a parameter or makes one up. -/
theorem edits_broken_otherwise :
    edits plain ["public void Set([Range(1,", "    Max = 10)] int level);"] =
        [.insert 0 "/// <summary>\n/// Set.\n/// </summary>\n"] ∧
      edits plain ["public void Set([Range(1,    Max = 10)] int level);"] =
        [.insert 0 ("/// <summary>\n/// Set.\n/// </summary>\n" ++
          "/// <param name=\"level\">The level.</param>\n")] ∧
      edits plain ["public void Run(ref Func<int,", "    string> map);"] =
        [.insert 0 ("/// <summary>\n/// Run.\n/// </summary>\n" ++
          "/// <param name=\"Func<int,\">The Func<int,.</param>\n" ++
          "/// <param name=\"map\">The map.</param>\n")] ∧
      edits plain ["public void Run(ref Func<int,    string> map);"] =
        [.insert 0 ("/// <summary>\n/// Run.\n/// </summary>\n" ++
          "/// <param name=\"map\">The map.</param>\n")] := by
  decide +kernel

end TripleSlash.Scan
