import ProcScript.Proofs.Command.Effects
import ProcScript.Proofs.Paths

/-!
# Search for settings

**Settings are those of the nearest file, whatever it says** (`Config.settled`).  A search looks
into the directories that are starts of its path, longest first (`Path.ancestors_components`), so
the first file it meets is the one in the longest of them (`Config.Nearest`); what is there but is
not a file is passed over.  What comes after is decided by that file alone (`Config.Loads`): a file
that cannot be read or does not state settings ends the search with its error.
-/

namespace ProcScript

/-- A path leads to a file. -/
def FileTree.HasFile (t : FileTree) (path : String) : Prop :=
  ∃ place content, t.locate path = .ok place ∧ t.file? place = some content

theorem FileTree.isFile_iff {t : FileTree} {path : String} : t.isFile path ↔ t.HasFile path := by
  rw [isFile, HasFile]
  cases t.locate path with
  | error e  => simp
  | ok place => simp [Option.isSome_iff_exists]

namespace Config

variable {t : FileTree} {start dir : Path}

/-! ### The directories of a search -/

/-- What stands above a path, and where a file of settings is looked for there: in the path as it
is written, and then in every shorter start of its components. -/
structure Ascends (start : Path) : Prop where
  itself : start.ancestors.head? = some start
  starts : start.ancestors.map Path.components = start.prefixes
  written : ∀ dir ∈ start.ancestors, dir.render.toList <+: start.render.toList
  joined : ∀ dir ∈ start.ancestors,
    (Path.ofString (dir.join fileName)).components = dir.components ++ [fileName]
  above : ∀ dir ∈ start.ancestors, ∃ above,
    (Path.ofString (dir.join fileName)).parent? = some above ∧ above.components = dir.components

theorem plain_fileName : Path.Plain fileName := ⟨by decide, by decide⟩

theorem ascends (h : start.WellFormed) : Ascends start where
  itself := by rw [Path.ancestors]; split <;> rfl
  starts := start.ancestors_components
  written _ := Path.render_prefix_of_mem_ancestors
  joined _ hdir := Path.components_join (h.mem_ancestors hdir) plain_fileName
  above _ hdir := Path.parent?_join (h.mem_ancestors hdir) plain_fileName

theorem wellFormed_startOf (script : String) : (startOf script).WellFormed := by
  rw [startOf]
  cases h : (Path.ofString script).parent? with
  | none   => exact Path.wellFormed_nil _
  | some p => exact (Path.wellFormed_ofString script).parent? h

/-! ### The nearest file -/

/-- `dir` is the longest start of a path in which there is a file of settings. -/
structure Nearest (t : FileTree) (start dir : Path) : Prop where
  above : dir ∈ start.ancestors
  hasFile : t.HasFile (dir.join fileName)
  longest : ∀ other ∈ start.ancestors, t.HasFile (other.join fileName) →
    other.components.length ≤ dir.components.length

/-- Two starts of a path that are as long as each other are the same. -/
theorem eq_of_length_components {p q : Path} (hp : p ∈ start.ancestors) (hq : q ∈ start.ancestors)
    (h : p.components.length = q.components.length) : p = q := by
  have hapart : start.ancestors.Pairwise fun p q => p.components.length ≠ q.components.length :=
    start.pairwise_ancestors.imp fun hlt => hlt.ne'
  have : Std.Symm fun p q : Path => p.components.length ≠ q.components.length :=
    ⟨fun _ _ => Ne.symm⟩
  by_contra hne
  exact hapart.forall hp hq hne h

/-- The search meets longer starts first, and the first file ends it. -/
theorem nearest_of_find?
    (h : start.ancestors.find? (fun dir => t.isFile (dir.join fileName)) = some dir) :
    Nearest t start dir := by
  obtain ⟨hfile, before, behind, hlist, hnot⟩ := List.find?_eq_some_iff_append.mp h
  refine ⟨by rw [hlist]; simp, FileTree.isFile_iff.mp hfile, fun other hother hasFile => ?_⟩
  have hshorter := start.pairwise_ancestors
  rw [hlist, List.pairwise_append, List.pairwise_cons] at hshorter
  rw [hlist, List.mem_append, List.mem_cons] at hother
  rcases hother with hbefore | rfl | hbehind
  · have hnone := hnot other hbefore
    rw [FileTree.isFile_iff.mpr hasFile] at hnone
    cases hnone
  · exact le_rfl
  · exact (hshorter.2.1.1 other hbehind).le

theorem Nearest.unique {other : Path} (h : Nearest t start dir) (h' : Nearest t start other) :
    dir = other :=
  eq_of_length_components h.above h'.above
    (le_antisymm (h'.longest dir h.above h.hasFile) (h.longest other h'.above h'.hasFile))

/-- What is there and is not a file, a directory say, is passed over. -/
theorem not_nearest_of_file?_eq_none {place : Place} (h : t.locate (dir.join fileName) = .ok place)
    (hfile : t.file? place = none) : ¬Nearest t start dir := by
  rintro ⟨-, ⟨other, content, hother, hcontent⟩, -⟩
  obtain rfl := Except.ok.inj (h.symm.trans hother)
  rw [hfile] at hcontent
  cases hcontent

/-- What a search from `start` ends with: the nearest file, or nothing if there is none. -/
inductive Searched (t : FileTree) (start : Path) : Option String → Prop where
  | nearest {dir : Path} (h : Nearest t start dir) : Searched t start (some (dir.join fileName))
  | nowhere (h : ∀ dir ∈ start.ancestors, ¬t.HasFile (dir.join fileName)) : Searched t start none

theorem find_view (t : FileTree) (start : Path) : find t.view start =
    (start.ancestors.find? fun dir => t.isFile (dir.join fileName)).map (·.join fileName) := by
  refine (List.findM?_pure (m := Id) t.isFile _).trans ?_
  exact List.find?_map

theorem find_eq_iff {found : Option String} :
    find t.view start = found ↔ Searched t start found := by
  rw [find_view]
  cases hfind : start.ancestors.find? fun dir => t.isFile (dir.join fileName) with
  | none =>
      have hnot : ∀ dir ∈ start.ancestors, ¬t.HasFile (dir.join fileName) := fun dir hdir hfile =>
        List.find?_eq_none.mp hfind dir hdir (FileTree.isFile_iff.mpr hfile)
      constructor
      · rintro rfl
        exact .nowhere hnot
      · rintro (h | -)
        · exact absurd h.hasFile (hnot _ h.above)
        · rfl
  | some dir =>
      have hdir := nearest_of_find? hfind
      constructor
      · rintro rfl
        exact .nearest hdir
      · rintro (h | hnot)
        · rw [hdir.unique h]
          rfl
        · exact absurd hdir.hasFile (hnot _ hdir.above)

/-! ### What the file says -/

/-- What a file comes to: its settings, with the directory that it is in, or why it has none. -/
inductive Loads (t : FileTree) (path : String) : Except ConfigError Config → Prop where
  | unreadable {error : FileError} (h : t.read path = .error error) :
      Loads t path (.error (.unreadable error))
  | malformed {text : String} (h : t.read path = .ok text) (hc : ofText? text = none) :
      Loads t path (.error .malformed)
  | settings {text : String} {c : Config} {dir : Path} (h : t.read path = .ok text)
      (hc : ofText? text = some c) (hdir : (Path.ofString path).parent? = some dir) :
      Loads t path (.ok { c with rootDir := some dir.render })

theorem load_view (t : FileTree) (path : String) : load t.view path =
    match t.read path with
    | .error e => .error (.unreadable e)
    | .ok text => match ofText? text with
      | none   => .error .malformed
      | some c => .ok { c with
          rootDir := some (((Path.ofString path).parent?.map Path.render).getD ".") } := by
  have hview : t.view.read path = pure (t.read path) := rfl
  rw [load, hview, pure_bind]
  cases t.read path with
  | error e => rfl
  | ok text => simp only; cases ofText? text <;> rfl

theorem load_eq_iff {path : String} {result : Except ConfigError Config}
    (hdir : (Path.ofString path).parent? = some dir) :
    load t.view path = result ↔ Loads t path result := by
  rw [load_view, hdir]
  constructor
  · rintro rfl
    cases hread : t.read path with
    | error e => exact .unreadable hread
    | ok text =>
        cases hc : ofText? text with
        | none   => simp only [hc]; exact .malformed hread hc
        | some c => simp only [hc]; exact .settings hread hc hdir
  · rintro (h | ⟨h, hc⟩ | ⟨h, hc, hdir'⟩)
    · rw [h]
    · simp only [h, hc]
    · obtain rfl := Option.some.inj (hdir.symm.trans hdir')
      simp only [h, hc]
      rfl

/-- What a search for settings comes to. -/
inductive Settled (t : FileTree) (start : Path) : Except ConfigError Config → Prop where
  | notFound (h : ∀ dir ∈ start.ancestors, ¬t.HasFile (dir.join fileName)) :
      Settled t start (.error (.notFound start.render))
  | loaded {dir : Path} {result : Except ConfigError Config} (h : Nearest t start dir)
      (hload : Loads t (dir.join fileName) result) : Settled t start result

theorem findAndLoad_eq_iff {script : String} {result : Except ConfigError Config} :
    findAndLoad t.view script = result ↔ Settled t (startOf script) result := by
  have hload {dir : Path} (hdir : dir ∈ (startOf script).ancestors) :
      load t.view (dir.join fileName) = result ↔ Loads t (dir.join fileName) result := by
    obtain ⟨above, habove, -⟩ := (ascends (wellFormed_startOf script)).above dir hdir
    exact load_eq_iff habove
  have hfind := find_eq_iff.mp (Eq.refl (find t.view (startOf script)))
  rw [findAndLoad]
  generalize find t.view (startOf script) = found at hfind
  constructor
  · rintro rfl
    cases hfind with
    | nearest h    => exact .loaded h ((hload h.above).mp rfl)
    | nowhere hnot => exact .notFound hnot
  · intro hsettled
    cases hfind with
    | nearest h =>
        cases hsettled with
        | notFound hnot       => exact absurd h.hasFile (hnot _ h.above)
        | loaded h' hloaded =>
            obtain rfl := h.unique h'
            exact (hload h.above).mpr hloaded
    | nowhere hnot =>
        cases hsettled with
        | notFound => rfl
        | loaded h => exact absurd h.hasFile (hnot _ h.above)

theorem settled_notFound_iff {origin : String} : Settled t start (.error (.notFound origin)) ↔
    Searched t start none ∧ origin = start.render := by
  constructor
  · rintro (hnot | ⟨-, hload⟩)
    · exact ⟨.nowhere hnot, rfl⟩
    · cases hload
  · rintro ⟨hnot | hnot, rfl⟩
    exact .notFound hnot

/-- **Settings are those of the nearest file, whatever it says.** -/
theorem settled (t : FileTree) (start script : String) :
    Ascends (.ofString start) ∧ Ascends (startOf script) ∧
    (∀ (p dir : Path) (place : Place), t.locate (dir.join fileName) = .ok place →
      t.file? place = none → ¬Nearest t p dir) ∧
    (∀ found, (find FileTree.files (.ofString start)).run t = (found, t) ↔
      Searched t (.ofString start) found) ∧
    (∀ result, (findAndLoad FileTree.files script).run t = (result, t) ↔
      Settled t (startOf script) result) ∧
    ((∃ origin, (findAndLoad FileTree.files script).run t = (.error (.notFound origin), t)) ↔
      (find FileTree.files (startOf script)).run t = (none, t)) := by
  have hfind (dir : Path) (found : Option String) :
      (find FileTree.files dir).run t = (found, t) ↔ Searched t dir found := by
    rw [show (find FileTree.files dir).run t = (find t.view dir, t) from find_reads t dir,
      Prod.mk.injEq, and_iff_left rfl]
    exact find_eq_iff
  have hload (result : Except ConfigError Config) :
      (findAndLoad FileTree.files script).run t = (result, t) ↔
        Settled t (startOf script) result := by
    rw [show (findAndLoad FileTree.files script).run t = (findAndLoad t.view script, t) from
      findAndLoad_reads t script, Prod.mk.injEq, and_iff_left rfl]
    exact findAndLoad_eq_iff
  refine ⟨ascends (Path.wellFormed_ofString start), ascends (wellFormed_startOf script),
    fun _ _ _ => not_nearest_of_file?_eq_none, hfind _, hload, ?_⟩
  simp only [hload, hfind, settled_notFound_iff]
  exact ⟨fun ⟨_, hnone, _⟩ => hnone, fun hnone => ⟨_, hnone, rfl⟩⟩

/-- A directory of the name is passed over, and the file above it counts. -/
example : (find (FileTree.view ⟨[(["a", "Piethon.toml"], .empty)],
    [["a"], ["a", "b"], ["a", "b", "Piethon.toml"]], []⟩) (.ofString "/a/b")).run =
      some "/a/Piethon.toml" := by
  decide +kernel

end Config

end ProcScript
