import Mathlib.Data.List.Basic
import ProcScript.CallGraph.Dot

/-!
# Calls — a drawing read back

**The text of a call graph says all that is drawn** (`CallGraph.ofDot?_dot`).  A drawing is read
back line by line: `Dot.name?` reads a name in its quotes, in which a backslash takes the
character behind it along, so that the first quote without one ends the name; `Dot.Line.read?`
tells the lines apart; and `Drawing.ofLines?` gathers them.  No name spells a line feed, so the
lines of the text are the lines that were written.
-/

namespace ProcScript

namespace Dot

/-! ### Names in quotes -/

/-- The characters up to the quote that ends a name, and what follows that quote. -/
def unescape? : List Char → Option (List Char × List Char)
  | []              => none
  | '"' :: cs       => some ([], cs)
  | '\\' :: x :: cs =>
      (unescape? cs).map fun r => ((if x = 'n' then '\n' else x) :: r.1, r.2)
  | x :: cs         => (unescape? cs).map fun r => (x :: r.1, r.2)

/-- What follows `word`. -/
def after? (word : String) (cs : List Char) : Option (List Char) := cs.dropPrefix? word.toList

/-- A name in its quotes, and what follows them. -/
def name? (cs : List Char) : Option (String × List Char) := do
  let (name, rest) ← unescape? (← after? "\"" cs)
  return (String.ofList name, rest)

theorem unescape?_escape (name rest : List Char) :
    unescape? (name.flatMap escape ++ '"' :: rest) = some (name, rest) := by
  induction name with
  | nil => rfl
  | cons x name ih =>
      rw [List.flatMap_cons, List.append_assoc]
      by_cases hquote : x = '"'
      · subst hquote
        simp [escape, unescape?, ih]
      · by_cases hslash : x = '\\'
        · subst hslash
          simp [escape, unescape?, ih]
        · by_cases hline : x = '\n'
          · subst hline
            simp [escape, unescape?, ih]
          · simp [escape, unescape?, ih, hquote, hslash, hline]

theorem after?_append (word : String) (rest : List Char) :
    after? word (word.toList ++ rest) = some rest :=
  List.dropPrefix?_append_of_beq rest BEq.rfl

theorem toList_quote (name : String) :
    (quote name).toList = '"' :: (name.toList.flatMap escape ++ ['"']) := by
  simp [quote]

/-- **A name ends where its quotes end**, whatever is in it and whatever follows. -/
theorem name?_quote (name : String) (rest : List Char) :
    name? ((quote name).toList ++ rest) = some (name, rest) := by
  have hopen : after? "\"" ((quote name).toList ++ rest) =
      some (name.toList.flatMap escape ++ '"' :: rest) := by
    rw [toList_quote]
    simpa using after?_append "\"" (name.toList.flatMap escape ++ '"' :: rest)
  simp [name?, hopen, unescape?_escape]

/-- Names start with a quote. -/
theorem name?_cons_of_ne {x : Char} (h : x ≠ '"') (cs : List Char) : name? (x :: cs) = none := by
  simp [name?, after?, List.dropPrefix?, h]

theorem newline_not_mem_quote (name : String) : '\n' ∉ (quote name).toList := by
  have hescape : ∀ x : Char, '\n' ∉ escape x := by
    intro x
    unfold escape
    split
    · simp
    · split
      · simp
      · split
        · simp
        · simpa using Ne.symm ‹_›
  simp [toList_quote, hescape]

/-! ### Lines -/

/-- A line of a drawing. -/
inductive Line where
  | opening (title : String)
  | caption (title : String)
  | direction (dir : RankDir)
  | shape
  | vertex (name : String)
  | edge (source target label : String)
  | closing
  deriving DecidableEq

namespace Line

/-- The line as it is written. -/
def text : Line → String
  | opening title            => "digraph " ++ quote title ++ " \x7b"
  | caption title            => "    label=" ++ quote title ++ ";"
  | direction dir            => "    rankdir=" ++ dir.name ++ ";"
  | shape                    => "    node [shape=triangle, style=filled, color=blue];"
  | vertex name              => vertexLine name
  | edge source target label => edgeLine label (source, target)
  | closing                  => "\x7d"

/-- A name up to the end of its line, which is `close`. -/
def lastName? (close : String) (cs : List Char) : Option String := do
  let (name, rest) ← name? cs
  if rest = close.toList then some name else none

/-- A vertex or an edge, behind the first name of its line. -/
def readBehind? (name : String) (cs : List Char) : Option Line :=
  match after? " -> " cs with
  | none    => if cs = [';'] then some (vertex name) else none
  | some cs => do
      let (target, cs) ← name? cs
      let label ← lastName? "];" (← after? " [label=" cs)
      return edge name target label

/-- An indented line without a name in front. -/
def readSetting? (cs : List Char) : Option Line :=
  match after? "label=" cs, after? "rankdir=" cs with
  | some cs, _    => (lastName? ";" cs).map caption
  | none, some cs => (RankDir.ofName? (String.ofList (cs.takeWhile (· ≠ ';')))).map direction
  | none, none    =>
      if cs = "node [shape=triangle, style=filled, color=blue];".toList then some shape else none

/-- What a line is. -/
def read? (cs : List Char) : Option Line :=
  match after? "    " cs, after? "digraph " cs with
  | some cs, _    =>
      match name? cs with
      | some (name, cs) => readBehind? name cs
      | none            => readSetting? cs
  | none, some cs => (lastName? " \x7b" cs).map opening
  | none, none    => if cs = ['\x7d'] then some closing else none

/-- **A line is read as what it is.** -/
theorem read?_text (l : Line) : read? l.text.toList = some l := by
  cases l with
  | opening title => simp [read?, text, after?, List.dropPrefix?, lastName?, name?_quote]
  | caption title =>
      simp [read?, text, after?, List.dropPrefix?, name?_cons_of_ne, readSetting?, lastName?,
        name?_quote]
  | direction dir =>
      cases dir <;> simp [read?, text, after?, List.dropPrefix?, name?_cons_of_ne, readSetting?,
        RankDir.name, RankDir.ofName?]
  | shape => simp [read?, text, after?, List.dropPrefix?, name?_cons_of_ne, readSetting?]
  | vertex name =>
      simp [read?, text, vertexLine, after?, List.dropPrefix?, name?_quote, readBehind?]
  | edge source target label =>
      simp [read?, text, edgeLine, after?, List.dropPrefix?, name?_quote, readBehind?, lastName?]
  | closing => simp [read?, text, after?, List.dropPrefix?]

/-- A line has no line feed of its own. -/
theorem newline_not_mem_text (l : Line) : '\n' ∉ l.text.toList := by
  cases l with
  | direction dir => cases dir <;> simp [text, RankDir.name]
  | opening | caption | shape | vertex | edge | closing =>
      simp [text, vertexLine, edgeLine, newline_not_mem_quote]

/-- The vertex that the line draws. -/
def vertex? : Line → Option String
  | vertex name => some name
  | opening _ | caption _ | direction _ | shape | edge _ _ _ | closing => none

/-- The edge that the line draws. -/
def edge? : Line → Option (String × String)
  | edge source target _ => some (source, target)
  | opening _ | caption _ | direction _ | shape | vertex _ | closing => none

/-- The label of the edge that the line draws. -/
def label? : Line → Option String
  | edge _ _ label => some label
  | opening _ | caption _ | direction _ | shape | vertex _ | closing => none

end Line

/-- Lines without line feeds of their own are the lines of the text they make up. -/
theorem splitOn_lines {ls : List (List Char)} (h : ∀ l ∈ ls, '\n' ∉ l) :
    (ls.flatMap (· ++ ['\n'])).splitOn '\n' = ls ++ [[]] := by
  induction ls with
  | nil => rfl
  | cons l ls ih =>
      have hone : ∀ l' ∈ [l], '\n' ∉ l' := by simpa using h l List.mem_cons_self
      have hl : l.splitOn '\n' = [l] := by
        simpa using List.splitOn_intercalate '\n' hone (List.cons_ne_nil _ _)
      have hls := ih fun l' hl' => h l' (List.mem_cons_of_mem _ hl')
      rw [List.splitOn_eq_splitOnP] at hl hls ⊢
      rw [List.flatMap_cons, List.append_assoc, List.singleton_append,
        List.splitOnP_append_cons l _ (by simp), hl, hls]
      rfl

end Dot

/-! ### Drawings -/

/-- All that a drawing shows. -/
structure Drawing where
  title : String
  rankDir : RankDir
  vertices : List String
  edges : List (String × String)
  /-- The label that the edges bear, if there are any. -/
  edgeLabel : Option String
  deriving DecidableEq

/-- What the lines show. -/
def Drawing.ofLines? : List Dot.Line → Option Drawing
  | .opening title :: .caption _ :: .direction dir :: .shape :: ls =>
      some ⟨title, dir, ls.filterMap Dot.Line.vertex?, ls.filterMap Dot.Line.edge?,
        ls.findSome? Dot.Line.label?⟩
  | _ => none

/-- What the text shows, if every line of it is one of a drawing. -/
def Drawing.ofDot? (text : String) : Option Drawing := do
  ofLines? (← (text.toList.splitOn '\n').dropLast.mapM Dot.Line.read?)

namespace CallGraph

variable (g : CallGraph) (title : String) (style : GraphStyle)

/-- All that is to be seen of a call graph. -/
def drawing : Drawing where
  title := title
  rankDir := style.rankDir
  vertices := g.vertices
  edges := g.edges
  edgeLabel := if g.edges = [] then none else some style.edgeLabel

/-- The lines of the vertices and of the edges. -/
def strokes (label : String) : List Dot.Line :=
  g.vertices.map .vertex ++ g.edges.map fun e => .edge e.1 e.2 label

/-- The lines of a call graph. -/
def lines : List Dot.Line :=
  .opening title :: .caption title :: .direction style.rankDir :: .shape ::
    (g.strokes style.edgeLabel ++ [Dot.Line.closing])

theorem dotLines_eq : g.dotLines title style = (g.lines title style).map Dot.Line.text := by
  simp [dotLines, lines, strokes, Dot.heading, Dot.Line.text, Function.comp_def]

/-- **The lines of the text are the lines that were written.** -/
theorem splitOn_dot : (g.dot title style).toList.splitOn '\n' =
    (g.dotLines title style).map String.toList ++ [[]] := by
  have hlines : ∀ l ∈ (g.dotLines title style).map String.toList, '\n' ∉ l := by
    rw [dotLines_eq, List.map_map]
    intro l hl
    obtain ⟨line, -, rfl⟩ := List.mem_map.mp hl
    exact line.newline_not_mem_text
  rw [← Dot.splitOn_lines hlines]
  simp [dot, String.toList_join, List.flatMap_map]

/-- The lines show what is to be seen. -/
theorem ofLines?_lines : Drawing.ofLines? (g.lines title style) =
    some (g.drawing title style) := by
  have hvertices : (g.strokes style.edgeLabel ++ [Dot.Line.closing]).filterMap Dot.Line.vertex? =
      g.vertices := by
    simp [strokes, List.filterMap_map, Function.comp_def, Dot.Line.vertex?]
  have hedges : (g.strokes style.edgeLabel ++ [Dot.Line.closing]).filterMap Dot.Line.edge? =
      g.edges := by
    have hnone : (g.vertices.map Dot.Line.vertex).filterMap Dot.Line.edge? = [] := by
      simp [Dot.Line.edge?]
    have hclosing : [Dot.Line.closing].filterMap Dot.Line.edge? = [] := rfl
    rw [strokes, List.filterMap_append, List.filterMap_append, hnone, hclosing]
    simp [List.filterMap_map, Function.comp_def, Dot.Line.edge?]
  have hlabel : (g.strokes style.edgeLabel ++ [Dot.Line.closing]).findSome? Dot.Line.label? =
      if g.edges = [] then none else some style.edgeLabel := by
    have hnone : (g.vertices.map Dot.Line.vertex).findSome? Dot.Line.label? = none := by
      simp [Dot.Line.label?]
    rw [strokes, List.append_assoc, List.findSome?_append, hnone, Option.none_or]
    -- the first edge, if there is one, tells the label
    cases g.edges with
    | nil => rfl
    | cons e es => rfl
  rw [lines, Drawing.ofLines?, hvertices, hedges, hlabel, drawing]

theorem ofDot?_eq : Drawing.ofDot? (g.dot title style) = some (g.drawing title style) := by
  have hread : ∀ ls : List Dot.Line,
      (ls.map fun l => l.text.toList).mapM Dot.Line.read? = some ls := by
    intro ls
    induction ls with
    | nil => rfl
    | cons l ls ih => simp [List.mapM_cons, l.read?_text, ih]
  rw [Drawing.ofDot?, splitOn_dot, List.dropLast_concat, dotLines_eq, List.map_map]
  simp only [Function.comp_def, hread]
  exact ofLines?_lines g title style

/-- **The text of a call graph says all that is drawn.**  Its title, its direction, its vertices
and its edges in their order, and the label of the edges if there are any, are read back from it,
so no two drawings have one text; each vertex and each edge has one line of the text; and a name
in its quotes is read to its end, whatever stands in it and behind it. -/
theorem ofDot?_dot :
    Drawing.ofDot? (g.dot title style) = some ⟨title, style.rankDir, g.vertices, g.edges,
      if g.edges = [] then none else some style.edgeLabel⟩ ∧
    (∀ (g' : CallGraph) (title' : String) (style' : GraphStyle),
      g.dot title style = g'.dot title' style' →
        title = title' ∧ style.rankDir = style'.rankDir ∧ g.vertices = g'.vertices ∧
          g.edges = g'.edges ∧ (g.edges ≠ [] → style.edgeLabel = style'.edgeLabel)) ∧
    (g.dot title style).toList.splitOn '\n' =
      (Dot.heading title style.rankDir ++ g.vertices.map Dot.vertexLine ++
        g.edges.map (Dot.edgeLine style.edgeLabel) ++ ["\x7d"]).map String.toList ++ [[]] ∧
    ∀ name rest, Dot.name? ((Dot.quote name).toList ++ rest) = some (name, rest) := by
  refine ⟨g.ofDot?_eq title style, fun g' title' style' h => ?_, g.splitOn_dot title style,
    Dot.name?_quote⟩
  have hdrawing : g.drawing title style = g'.drawing title' style' := by
    rw [← Option.some.injEq, ← ofDot?_eq, ← ofDot?_eq, h]
  simp only [drawing, Drawing.mk.injEq] at hdrawing
  obtain ⟨htitle, hdir, hvertices, hedges, hlabel⟩ := hdrawing
  refine ⟨htitle, hdir, hvertices, hedges, fun hne => ?_⟩
  rwa [← hedges, if_neg hne, if_neg hne, Option.some.injEq] at hlabel

end CallGraph

end ProcScript
