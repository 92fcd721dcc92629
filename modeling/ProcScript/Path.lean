/-!
# ProcScript — Path

Names of places in a file tree.  A path is kept as it was written: what it starts from and the
parts between its slashes, so that `Path.render` gives the text back (`Path.render_ofString`).
An empty part and a `.` lead nowhere and are passed over when the last part is looked for; what
is left of a path without its last part is written as before.
-/

namespace ProcScript

/-- What a path starts from: the working directory, unnamed or as `.`, or the root. -/
inductive Anchor where
  | work
  | here
  | root
  deriving DecidableEq, Inhabited

/-- What an anchor is written as. -/
def Anchor.chars : Anchor → List Char
  | .work => []
  | .here => ['.']
  | .root => ['/']

/-- A path: its start, and the parts behind it, last one first. -/
structure Path where
  anchor : Anchor
  parts : List String
  deriving DecidableEq, Inhabited

namespace Path

/-- The texts between the slashes of a text. -/
def split : List Char → List (List Char)
  | []      => [[]]
  | c :: cs =>
      if c = '/' then [] :: split cs
      else
        match split cs with
        | p :: ps => (c :: p) :: ps
        | []      => [[c]]

/-- Texts with a slash between any two. -/
def unsplit : List (List Char) → List Char
  | []           => []
  | [p]          => p
  | p :: q :: ps => p ++ '/' :: unsplit (q :: ps)

theorem split_ne_nil (cs : List Char) : split cs ≠ [] := by
  cases cs with
  | nil => simp [split]
  | cons c cs =>
      unfold split
      split
      · simp
      · split <;> simp

theorem unsplit_split (cs : List Char) : unsplit (split cs) = cs := by
  induction cs with
  | nil => rfl
  | cons c cs ih =>
      unfold split
      split
      · rename_i hc
        cases hs : split cs with
        | nil => exact absurd hs (split_ne_nil cs)
        | cons p ps => simp only [unsplit]; rw [← hs, ih, hc]; rfl
      · cases hs : split cs with
        | nil => exact absurd hs (split_ne_nil cs)
        | cons p ps =>
            rw [hs] at ih
            cases ps with
            | nil => simp only [unsplit] at ih ⊢; rw [ih]
            | cons q ps => simp only [unsplit, List.cons_append] at ih ⊢; rw [ih]

/-- The parts of a text, last one first. -/
def partsOf (cs : List Char) : List String := ((split cs).map String.ofList).reverse

/-- The path that a text writes. -/
def ofString (s : String) : Path :=
  match s.toList with
  | []               => ⟨.work, []⟩
  | '/' :: cs        => ⟨.root, partsOf cs⟩
  | ['.']            => ⟨.here, []⟩
  | '.' :: '/' :: cs => ⟨.here, partsOf ('/' :: cs)⟩
  | cs               => ⟨.work, partsOf cs⟩

/-- The text of a path. -/
def render (p : Path) : String :=
  String.ofList (p.anchor.chars ++ unsplit (p.parts.reverse.map String.toList))

theorem unsplit_partsOf (cs : List Char) :
    unsplit ((partsOf cs).reverse.map String.toList) = cs := by
  have h : (String.toList ∘ String.ofList : List Char → List Char) = id := by
    funext; simp
  rw [partsOf, List.reverse_reverse, List.map_map, h, List.map_id, unsplit_split]

/-- A path is written as it was read. -/
theorem render_ofString (s : String) : (ofString s).render = s := by
  have hs : String.ofList s.toList = s := by simp
  unfold ofString render
  split
  case h_1 h => rw [h] at hs; rw [← hs]; rfl
  case h_2 cs h => rw [h] at hs; simp only [unsplit_partsOf]; rw [← hs]; rfl
  case h_3 h => rw [h] at hs; rw [← hs]; rfl
  case h_4 cs h => rw [h] at hs; simp only [unsplit_partsOf]; rw [← hs]; rfl
  case h_5 => simp only [unsplit_partsOf]; exact hs

/-- A part that leads nowhere. -/
def isVoid (part : String) : Bool := part == "" || part == "."

/-- The path without its last part; what only names the root, or nothing, has none. -/
def parent? (p : Path) : Option Path :=
  match p.parts.dropWhile isVoid with
  | _ :: rest => some ⟨p.anchor, rest.dropWhile isVoid⟩
  | []        => if p.anchor = .here then some ⟨.work, []⟩ else none

/-- The last part, if it is a name. -/
def fileName? (p : Path) : Option String :=
  match p.parts.dropWhile isVoid with
  | name :: _ => if name = ".." then none else some name
  | []        => none

/-- How often a path can be shortened, at most. -/
def depth (p : Path) : Nat := p.parts.length + if p.anchor = .here then 1 else 0

theorem depth_parent?_lt {p q : Path} (h : p.parent? = some q) : q.depth < p.depth := by
  unfold parent? at h
  have hle := (List.dropWhile_suffix isVoid (l := p.parts)).length_le
  split at h
  · rename_i part rest hp
    obtain rfl := Option.some.inj h
    have hrest := (List.dropWhile_suffix isVoid (l := rest)).length_le
    simp only [hp, List.length_cons] at hle
    simp only [depth]
    omega
  · split at h
    · rename_i ha
      obtain rfl := Option.some.inj h
      simp [depth, ha]
    · exact absurd h (by simp)

/-- The path, the path without its last part, and so on. -/
def ancestors (p : Path) : List Path :=
  match _h : p.parent? with
  | none   => [p]
  | some q => p :: q.ancestors
termination_by p.depth
decreasing_by exact depth_parent?_lt (by assumption)

/-- The text of the path to `name` in the directory `p`. -/
def join (p : Path) (name : String) : String :=
  let dir := p.render
  if dir = "" ∨ dir.toList.getLast? = some '/' then dir ++ name else dir ++ "/" ++ name

end Path

end ProcScript
