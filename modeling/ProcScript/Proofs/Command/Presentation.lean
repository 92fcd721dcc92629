import ProcScript.Proofs.Command.Args
import ProcScript.Proofs.Command.Effects
import ProcScript.Proofs.Json

/-!
# Command — presentation

**How a run is presented changes nothing about its outcome** (`Command.presented`).  Two trees are
alike here if they differ in what settings say about silence only (`FileTree.SameButSilent`): every
path leads to the same place in both, the script is the same, and so are the settings apart from
silence.  What is loaded on either then has the same verdict, and the verdict, with the task, is all
that the exit code, the answer and the file written depend on.  A list of diagnostics in JSON is
read back as it was found.
-/

namespace ProcScript

/-! ### Settings apart from silence -/

/-- The settings, with everything logged. -/
def Config.loud (c : Config) : Config := { c with silent := false }

/-- The texts state the same settings apart from silence, or both state none. -/
def Config.SameButSilent (text text' : String) : Prop :=
  (Config.ofText? text).map Config.loud = (Config.ofText? text').map Config.loud

/-- The trees have the same script, and differ in what settings say about silence only. -/
structure FileTree.SameButSilent (t t' : FileTree) (script : String) : Prop where
  dirs : t'.dirs = t.dirs
  workDir : t'.workDir = t.workDir
  script : t'.read script = t.read script
  files : ∀ place, t'.file? place = t.file? place ∨ ∃ text text',
    t.file? place = some text.toUTF8 ∧ t'.file? place = some text'.toUTF8 ∧
      Config.SameButSilent text text'

namespace FileTree

variable {t t' : FileTree} {script : String}

theorem SameButSilent.refl (t : FileTree) (script : String) : t.SameButSilent t script :=
  ⟨rfl, rfl, rfl, fun _ => .inl rfl⟩

namespace SameButSilent

variable (h : t.SameButSilent t' script)

include h

theorem isDir (place : Place) : t'.isDir place = t.isDir place := by
  rw [FileTree.isDir, h.dirs, FileTree.isDir]

theorem isSome_file? (place : Place) : (t'.file? place).isSome = (t.file? place).isSome := by
  rcases h.files place with hsame | ⟨text, text', htext, htext', -⟩
  · rw [hsame]
  · rw [htext, htext']
    rfl

theorem walk (place : Place) (parts : List String) : t'.walk place parts = t.walk place parts := by
  induction parts generalizing place with
  | nil => rfl
  | cons part parts ih => rw [FileTree.walk, FileTree.walk, h.isSome_file?, h.isDir, ih, ih, ih]

theorem follow (path : String) (parts : List String) :
    t'.follow path parts = t.follow path parts := by
  rw [FileTree.follow, FileTree.follow, h.walk, start, start, h.workDir]

/-- Every path leads to the same place in both trees. -/
theorem locate (path : String) : t'.locate path = t.locate path := h.follow path _

theorem locateNew (path : String) : t'.locateNew path = t.locateNew path := by
  simp only [FileTree.locateNew, h.locate, h.follow]

theorem isFile (path : String) : t'.isFile path = t.isFile path := by
  simp only [FileTree.isFile, h.locate, h.isSome_file?]

theorem resolve (path : String) : t'.resolve path = t.resolve path := by
  simp only [FileTree.resolve, h.locate, h.isSome_file?, h.isDir]

/-- The text at a path is the same, or else both are settings that differ in silence only. -/
theorem read (path : String) : t'.read path = t.read path ∨ ∃ text text',
    t.read path = .ok text ∧ t'.read path = .ok text' ∧ Config.SameButSilent text text' := by
  rcases hplace : t.locate path with e | place
  · left
    rw [FileTree.read, FileTree.read, h.locate, hplace]
    rfl
  · rcases h.files place with hsame | ⟨text, text', htext, htext', halike⟩
    · left
      simp only [FileTree.read, h.locate, hplace, bind, Except.bind, hsame, h.isDir]
    · exact .inr ⟨text, text', read_of_file? hplace htext,
        read_of_file? ((h.locate path).trans hplace) htext', halike⟩

/-- A file is written to the same place of both, or to neither. -/
theorem write (path text : String) :
    (∃ e, t.write path text = .error e ∧ t'.write path text = .error e) ∨
      ∃ place, t.write path text = .ok (t.put place text.toUTF8) ∧
        t'.write path text = .ok (t'.put place text.toUTF8) := by
  rw [FileTree.write, FileTree.write, h.locateNew]
  rcases t.locateNew path with e | place
  · exact .inl ⟨e, rfl, rfl⟩
  · simp only [bind, Except.bind, h.isDir]
    cases t.isDir place
    · exact .inr ⟨place, rfl, rfl⟩
    · exact .inl ⟨.isDirectory, rfl, rfl⟩

end SameButSilent

end FileTree

/-- The tree with a file written, if one is. -/
def FileTree.putAny (t : FileTree) : Option (Place × ByteArray) → FileTree
  | none                  => t
  | some (place, content) => t.put place content

/-! ### What is loaded -/

namespace Config

theorem load_of_read {t : FileTree} {path text : String} (h : t.read path = .ok text) :
    Except.map loud (load t.view path) = match (ofText? text).map loud with
      | none   => .error .malformed
      | some c => .ok { c with
          rootDir := some (((Path.ofString path).parent?.map Path.render).getD ".") } := by
  have hview : t.view.read path = pure (.ok text) := h
  rw [load, hview, pure_bind]
  simp only
  cases ofText? text <;> rfl

variable {t t' : FileTree} {script : String} (h : t.SameButSilent t' script)

include h

theorem load_alike (path : String) :
    Except.map loud (load t'.view path) = Except.map loud (load t.view path) := by
  rcases h.read path with hsame | ⟨text, text', htext, htext', halike⟩
  · have hview : t'.view.read path = t.view.read path := hsame
    rw [load, load, hview]
  · rw [load_of_read htext, load_of_read htext', halike]

theorem find_alike (dir : Path) : find t'.view dir = find t.view dir := by
  have hview : t'.view.isFile = t.view.isFile := funext h.isFile
  rw [find, find, hview]

theorem findAndLoad_alike (start : String) :
    Except.map loud (findAndLoad t'.view start) = Except.map loud (findAndLoad t.view start) := by
  rw [findAndLoad, findAndLoad, find_alike h]
  rcases find t.view (startOf start) with _ | path
  · rfl
  · exact load_alike h path

end Config

namespace Command

variable {t t' : FileTree} {o o' : Options}

/-- The settings that were found, or the defaults if there is no file of settings. -/
def orDefaults : Except ConfigError Config → Except ConfigError Config
  | .error (.notFound _) => .ok Config.defaults
  | found                => found

theorem orDefaults_alike {r r' : Except ConfigError Config}
    (h : Except.map Config.loud r' = Except.map Config.loud r) :
    Except.map Config.loud (orDefaults r') = Except.map Config.loud (orDefaults r) := by
  rcases r with e | c <;> rcases r' with e' | c'
  · obtain rfl := Except.error.inj h
    rfl
  · cases h
  · cases h
  · exact h

theorem loadConfig_of_none (h : o.config = none) : loadConfig t.view o =
    orDefaults (Config.findAndLoad t.view
      ((t.resolve o.task.input).toOption.getD o.task.input)) := by
  have hview : t.view.resolve o.task.input = pure (t.resolve o.task.input) := rfl
  rw [loadConfig, h]
  simp only
  rw [hview, pure_bind]
  rcases Config.findAndLoad t.view ((t.resolve o.task.input).toOption.getD o.task.input) with
    (_ | _ | _) | c <;> rfl

theorem loadConfig_alike (h : t.SameButSilent t' o.task.input)
    (hinput : o.task.input = o'.task.input) (hconfig : o.config = o'.config) :
    Except.map Config.loud (loadConfig t'.view o') =
      Except.map Config.loud (loadConfig t.view o) := by
  cases hpath : o.config with
  | some path =>
      rw [loadConfig, loadConfig, ← hconfig, hpath]
      exact Config.load_alike h path
  | none      =>
      rw [loadConfig_of_none hpath, loadConfig_of_none (hconfig.symm.trans hpath), ← hinput,
        h.resolve]
      exact orDefaults_alike (Config.findAndLoad_alike h _)

/-- The scripts have the same name and text, and the same settings apart from silence. -/
structure Loaded.Alike (l l' : Loaded) : Prop where
  name : l'.name = l.name
  text : l'.text = l.text
  config : l'.config.loud = l.config.loud

/-- The same is loaded, apart from silence, or nothing is for the same reason. -/
theorem load_alike (h : t.SameButSilent t' o.task.input)
    (hinput : o.task.input = o'.task.input) (hconfig : o.config = o'.config) :
    (∃ e, load t.view o = .error e ∧ load t'.view o' = .error e) ∨
      ∃ l l', load t.view o = .ok l ∧ load t'.view o' = .ok l' ∧ l.Alike l' := by
  have hread : t'.read o'.task.input = t.read o.task.input := by
    rw [← hinput]
    exact h.script
  rcases htext : t.read o.task.input with e | text
  · refine .inl ⟨_, load_of_read_error htext, ?_⟩
    rw [load_of_read_error (hread.trans htext), hinput]
  · have hsettings := loadConfig_alike h hinput hconfig
    rw [load_of_read htext, load_of_read (hread.trans htext)]
    rcases hc : loadConfig t.view o with e | config <;>
      rcases hc' : loadConfig t'.view o' with e' | config' <;> rw [hc, hc'] at hsettings
    · obtain rfl := Except.error.inj hsettings
      exact .inl ⟨_, rfl, rfl⟩
    · cases hsettings
    · cases hsettings
    · exact .inr ⟨_, _, rfl, rfl, by rw [hinput], rfl, Except.ok.inj hsettings⟩

/-! ### Outcomes -/

/-- The runs end with the same exit code and the same answer, and write the same file, if any. -/
structure SameOutcome (t t' : FileTree) (r r' : Transcript × FileTree) : Prop where
  exitCode : r'.1.exitCode = r.1.exitCode
  stdout : r'.1.stdout = r.1.stdout
  files : ∃ written, r.2 = t.putAny written ∧ r'.2 = t'.putAny written

/-- Runs that write nothing have the same outcome if they say the same. -/
theorem SameOutcome.unwritten {said said' : Transcript} (hexit : said'.exitCode = said.exitCode)
    (hstdout : said'.stdout = said.stdout) : SameOutcome t t' (said, t) (said', t') :=
  ⟨hexit, hstdout, none, rfl, rfl⟩

namespace Loaded.Alike

variable {l l' : Loaded} (h : l.Alike l')

include h

theorem verdict : l'.verdict = l.verdict := by
  rw [Loaded.verdict, Loaded.verdict, h.name, h.text]

theorem dot (g : CallGraph) (title : Option String) : l'.dot g title = l.dot g title := by
  have hloud : l'.config.loud.style = l.config.loud.style := by rw [h.config]
  have hstyle : l'.config.style = l.config.style := hloud
  rw [Loaded.dot, Loaded.dot, hstyle]

/-- Either script is checked, or both are answered alike. -/
theorem analyse (quiet quiet' json : Bool) :
    (∃ said said', l.analyse quiet json = .error said ∧ l'.analyse quiet' json = .error said' ∧
      said'.exitCode = said.exitCode ∧ said'.stdout = said.stdout) ∨
      ∃ checked, l.analyse quiet json = .ok checked ∧ l'.analyse quiet' json = .ok checked := by
  rcases hv : l.verdict with misuse | found | checked
  · exact .inl ⟨_, _, analyse_of_misuse hv _ _, analyse_of_misuse (h.verdict.trans hv) _ _, rfl,
      rfl⟩
  · exact .inl ⟨_, _, analyse_of_found hv _ _, analyse_of_found (h.verdict.trans hv) _ _, rfl, rfl⟩
  · exact .inr ⟨checked, analyse_of_checked hv _ _, analyse_of_checked (h.verdict.trans hv) _ _⟩

theorem check (quiet quiet' json : Bool) :
    (l'.check quiet' json).exitCode = (l.check quiet json).exitCode ∧
      (l'.check quiet' json).stdout = (l.check quiet json).stdout := by
  rw [Loaded.check, Loaded.check]
  rcases h.analyse quiet quiet' json with ⟨said, said', hl, hl', hsame⟩ | ⟨checked, hl, hl'⟩
  · rw [hl, hl']
    exact hsame
  · rw [hl, hl']
    exact ⟨rfl, rfl⟩

/-- The same drawing is printed, or written to the same place, or there is none in either run. -/
theorem writeGraph {script : String} (hfiles : t.SameButSilent t' script) (quiet quiet' : Bool)
    (output title : Option String) :
    SameOutcome t t' ((writeGraph FileTree.files l quiet output title).run t)
      ((writeGraph FileTree.files l' quiet' output title).run t') := by
  rcases h.analyse quiet quiet' false with
    ⟨said, said', hl, hl', hexit, hstdout⟩ | ⟨checked, hl, hl'⟩
  · rw [writeGraph_of_error hl, writeGraph_of_error hl']
    exact .unwritten hexit hstdout
  · cases output with
    | none      =>
        rw [writeGraph_none hl, writeGraph_none hl', h.dot]
        exact .unwritten rfl rfl
    | some path =>
        rw [writeGraph_some hl, writeGraph_some hl', h.dot]
        rcases hfiles.write path (l.dot checked.script.callGraph title) with
          ⟨e, hw, hw'⟩ | ⟨place, hw, hw'⟩
        · rw [hw, hw']
          exact .unwritten rfl rfl
        · rw [hw, hw']
          exact ⟨rfl, rfl, some (place, _), rfl, rfl⟩

end Loaded.Alike

theorem performOn_alike (h : t.SameButSilent t' o.task.input) (htask : o.task = o'.task)
    (hconfig : o.config = o'.config) : SameOutcome t t' (performOn t o) (performOn t' o') := by
  rcases load_alike h (congrArg Task.input htask) hconfig with ⟨e, hl, hl'⟩ | ⟨l, l', hl, hl', hall⟩
  · rw [performOn_of_load_error hl, performOn_of_load_error hl']
    exact .unwritten rfl rfl
  · rw [performOn_of_load hl, performOn_of_load hl', ← htask]
    cases o.task with
    | check input json =>
        obtain ⟨hexit, hstdout⟩ := hall.check o.quiet o'.quiet json
        exact .unwritten hexit hstdout
    | graph input output title => exact hall.writeGraph h o.quiet o'.quiet output title

/-! ### Exit codes -/

/-- The file that a command writes, if it is asked for one. -/
def Task.output? : Task → Option String
  | .check _ _        => none
  | .graph _ output _ => output

/-- The exit code for a script, if nothing is to be written. -/
def Loaded.exitCode (l : Loaded) : Nat :=
  match l.verdict with
  | .ok (.ok _) => 0
  | _           => 1

theorem Loaded.exitCode_eq {l : Loaded} (quiet json : Bool) :
    (∃ said, l.analyse quiet json = .error said ∧ said.exitCode = l.exitCode) ∨
      ∃ checked, l.analyse quiet json = .ok checked ∧ l.exitCode = 0 := by
  rw [exitCode]
  rcases hv : l.verdict with misuse | found | checked
  · exact .inl ⟨_, analyse_of_misuse hv _ _, rfl⟩
  · exact .inl ⟨_, analyse_of_found hv _ _, rfl⟩
  · exact .inr ⟨checked, analyse_of_checked hv _ _, rfl⟩

theorem exitCode_performOn {l : Loaded} (hl : load t.view o = .ok l)
    (hout : o.task.output? = none) : (performOn t o).1.exitCode = l.exitCode := by
  rw [performOn_of_load hl]
  cases htask : o.task with
  | check input json         =>
      simp only [Loaded.check]
      rcases l.exitCode_eq o.quiet json with ⟨said, hsaid, hexit⟩ | ⟨checked, hchecked, hexit⟩
      · rw [hsaid, hexit]
      · rw [hchecked, hexit]
        rfl
  | graph input output title =>
      rw [htask] at hout
      obtain rfl : output = none := hout
      rcases l.exitCode_eq o.quiet false with ⟨said, hsaid, hexit⟩ | ⟨checked, hchecked, hexit⟩
      · simp only [writeGraph_of_error hsaid, hexit]
      · simp only [writeGraph_none hchecked, hexit]

/-- Commands that write no file end alike on one script with one choice of settings. -/
theorem exitCode_alike (h : t.SameButSilent t' o.task.input)
    (hinput : o.task.input = o'.task.input) (hconfig : o.config = o'.config)
    (hout : o.task.output? = none) (hout' : o'.task.output? = none) :
    (performOn t' o').1.exitCode = (performOn t o).1.exitCode := by
  rcases load_alike h hinput hconfig with ⟨e, hl, hl'⟩ | ⟨l, l', hl, hl', hall⟩
  · rw [performOn_of_load_error hl, performOn_of_load_error hl']
  · rw [exitCode_performOn hl hout, exitCode_performOn hl' hout', Loaded.exitCode,
      Loaded.exitCode, hall.verdict]

/-! ### Diagnostics in JSON -/

/-- What a check of the script finds, on the files of `t`. -/
def Finds (t : FileTree) (o : Options) (found : List Diagnostic) : Prop :=
  ∃ text config, t.read o.task.input = .ok text ∧ loadConfig t.view o = .ok config ∧
    (Analyzer.new.withScript ((Path.ofString o.task.input).fileName?.getD "") text).check =
      .ok (.error found)

/-- A check says in JSON what it finds, one element for each diagnostic, and how many there are. -/
theorem performOn_json {input : String} {found : List Diagnostic} (h : Finds t o found)
    (htask : o.task = .check input true) :
    Json.ofText? (performOn t o).1.stdout = some (.array (found.map Diagnostic.toJson)) ∧
      ∃ before, (performOn t o).1.log =
        before ++ [⟨.error, toString found.length ++ " error(s) found"⟩] := by
  obtain ⟨text, config, hread, hconfig, hfound⟩ := h
  let l : Loaded := ⟨(Path.ofString o.task.input).fileName?.getD "", text, config⟩
  have hl : load t.view o = .ok l := load_eq_ok_iff.mpr ⟨hread, hconfig, rfl⟩
  have hverdict : l.verdict = .ok (.error found) := hfound
  rw [performOn_of_load hl, htask]
  simp only [Loaded.check, Loaded.analyse_of_found hverdict]
  exact ⟨Json.ofText?_render _ 0, _, rfl⟩

/-! ### Command lines -/

/-- What two command lines for one script and one choice of settings have in common: `args`, which
means `o`, on the files of `t` and `args'`, which means `o'`, on those of `t'`. -/
structure Presented (t t' : FileTree) (args args' : List String) (o o' : Options) : Prop where
  /-- Whatever the commands, they end with the same exit code if no file is to be written. -/
  exitCode : o.task.output? = none → o'.task.output? = none →
    (runOn t' args').1.exitCode = (runOn t args).1.exitCode
  /-- One command has one outcome, however quiet it is and whatever is logged. -/
  outcome : o.task = o'.task → SameOutcome t t' (runOn t args) (runOn t' args')
  /-- In particular `--quiet` may be added, -/
  quiet : o.quiet = false → SameOutcome t t (runOn t args) (runOn t ("--quiet" :: args))
  /-- and `--log-level`, with any text. -/
  logLevel : o.logLevel = none → ∀ level,
    SameOutcome t t (runOn t args) (runOn t (("--log-level=" ++ level) :: args))
  /-- What a check finds is said in JSON by an array with one element for each diagnostic, in order,
  and the last line of the log counts them. -/
  listed : ∀ input found, o.task = .check input true → Finds t o found → ∃ elements,
    Json.ofText? (runOn t args).1.stdout = some (.array elements) ∧
      elements = found.map Diagnostic.toJson ∧
      ((LogFilter.ofOption o.logLevel).shows .error = true →
        (runOn t args).1.log.getLast? =
          some ⟨.error, toString elements.length ++ " error(s) found"⟩)

theorem runOn_alike {args args' : List String} (ho : Options.ofArgs args = .ok o)
    (ho' : Options.ofArgs args' = .ok o') (h : t.SameButSilent t' o.task.input)
    (htask : o.task = o'.task) (hconfig : o.config = o'.config) :
    SameOutcome t t' (runOn t args) (runOn t' args') := by
  obtain ⟨hexit, hstdout, hfiles⟩ := performOn_alike h htask hconfig
  rw [runOn_of_ok ho, runOn_of_ok ho']
  exact ⟨hexit, hstdout, hfiles⟩

/-- **How a run is presented changes nothing about its outcome.** -/
theorem presented {args args' : List String} (ho : Options.ofArgs args = .ok o)
    (ho' : Options.ofArgs args' = .ok o') (hinput : o.task.input = o'.task.input)
    (hconfig : o.config = o'.config) (h : t.SameButSilent t' o.task.input) :
    Presented t t' args args' o o' where
  exitCode hout hout' := by
    rw [runOn_of_ok ho, runOn_of_ok ho']
    exact exitCode_alike h hinput hconfig hout hout'
  outcome htask := runOn_alike ho ho' h htask hconfig
  quiet hquiet := runOn_alike ho (Options.ofArgs_quiet ho hquiet) (.refl t _) rfl rfl
  logLevel hlevel level :=
    runOn_alike ho (Options.ofArgs_logLevel ho hlevel level) (.refl t _) rfl rfl
  listed input found htask hfinds := by
    obtain ⟨hread, before, hlog⟩ := performOn_json hfinds htask
    rw [runOn_of_ok ho]
    refine ⟨_, hread, rfl, fun hshown => ?_⟩
    simp [hlog, List.filter_append, List.length_map, hshown]

/-- A script with an error, and settings that say whether it is logged. -/
def settled (silent : String) : FileTree where
  contents := [(["a.pie"], "def f() : Void is g(); end".toUTF8),
    (["Piethon.toml"], ("[analyzer]\nsilent = " ++ silent ++ "\n").toUTF8)]
  dirs := []
  workDir := []

theorem settled_sameButSilent : (settled "true").SameButSilent (settled "false") "a.pie" := by
  refine ⟨rfl, rfl, ?_, fun place => ?_⟩
  · cbv
  · by_cases hplace : place = ["Piethon.toml"]
    · subst hplace
      exact .inr ⟨_, _, rfl, rfl, by cbv⟩
    · left
      have hother : (place == ["Piethon.toml"]) = false := beq_eq_false_iff_ne.mpr hplace
      simp [settled, FileTree.file?, List.lookup_cons, hother]

theorem settled_finds : Finds (settled "true") ⟨.check "a.pie" true, false, none, none⟩
    [.noSuchSymbol "g" ⟨"a.pie", ⟨1, 19, 18⟩, ⟨1, 23, 22⟩⟩] :=
  ⟨"def f() : Void is g(); end", ⟨true, Config.defaults.style, some "/"⟩, by cbv, by cbv, by cbv⟩

/-- A check that is quiet, under settings that say otherwise, and with a log level that there is
not, says what one that is none of that says: the one diagnostic, in JSON. -/
theorem settled_presented :
    SameOutcome (settled "true") (settled "false")
        (runOn (settled "true") ["check", "a.pie", "--json"])
        (runOn (settled "false") ["-q", "--log-level", "loud", "check", "a.pie", "--json"]) ∧
      ∃ element, Json.ofText? (runOn (settled "true") ["check", "a.pie", "--json"]).1.stdout =
        some (.array [element]) := by
  have ho : Options.ofArgs ["check", "a.pie", "--json"] =
      .ok ⟨.check "a.pie" true, false, none, none⟩ := by cbv
  have ho' : Options.ofArgs ["-q", "--log-level", "loud", "check", "a.pie", "--json"] =
      .ok ⟨.check "a.pie" true, true, some "loud", none⟩ := by cbv
  have h := presented ho ho' rfl rfl settled_sameButSilent
  obtain ⟨_, hread, rfl, -⟩ := h.listed "a.pie" _ rfl settled_finds
  exact ⟨h.outcome rfl, _, hread⟩

end Command

end ProcScript
