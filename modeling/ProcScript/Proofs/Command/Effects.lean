import ProcScript.Command.Run
import ProcScript.Proofs.Files
import ProcScript.Proofs.Stages

/-!
# Command — effects on files

**A run that fails leaves the files as they were, and one that succeeds writes at most the drawing
it was asked for** (`Command.effects`).  Everything up to the drawing only reads: it is done as on
files that nothing changes (`FileTree.view`) and leaves the tree of the start (`FileTree.Reads`).
The one write comes last, and nothing can fail behind it.
-/

namespace ProcScript

/-! ### Reading leaves a tree as it is -/

namespace FileTree

variable {α β : Type} {t : FileTree}

/-- On the tree `t`, `x` gives what `y` gives, and the tree is left as it is. -/
def Reads (t : FileTree) (x : StateM FileTree α) (y : Id α) : Prop := x.run t = (y, t)

namespace Reads

theorem pure (a : α) : t.Reads (pure a) (pure a) := rfl

theorem bind {x : StateM FileTree α} {y : Id α} {f : α → StateM FileTree β} {g : α → Id β}
    (hx : t.Reads x y) (hf : ∀ a, t.Reads (f a) (g a)) : t.Reads (x >>= f) (y >>= g) := by
  rw [Reads, StateT.run_bind, show x.run t = (y, t) from hx]
  exact hf y

theorem read (path : String) : t.Reads (files.read path) (t.view.read path) := rfl

theorem isFile (path : String) : t.Reads (files.isFile path) (t.view.isFile path) := rfl

theorem resolve (path : String) : t.Reads (files.resolve path) (t.view.resolve path) := rfl

theorem findM? {p : α → StateM FileTree Bool} {q : α → Id Bool} (h : ∀ a, t.Reads (p a) (q a)) :
    (as : List α) → t.Reads (as.findM? p) (as.findM? q)
  | []      => .pure none
  | a :: as => by
      refine (h a).bind fun found => ?_
      cases found
      · exact findM? h as
      · exact .pure (some a)

end Reads

/-- A write changes the tree if it can be done. -/
theorem run_write (t : FileTree) (path text : String) : (files.write path text).run t =
    match t.write path text with
    | .ok t'   => (.ok (), t')
    | .error e => (.error e, t) := by
  have hwrite : (files.write path text).run t = StateT.run (m := Id)
      (match t.write path text with
      | .ok t'   => do set t'; return .ok ()
      | .error e => return .error e) t := rfl
  rw [hwrite]
  cases t.write path text <;> rfl

end FileTree

namespace Config

variable (t : FileTree)

theorem find_reads (dir : Path) : t.Reads (find FileTree.files dir) (find t.view dir) :=
  .findM? (fun path => .isFile path) _

theorem load_reads (path : String) : t.Reads (load FileTree.files path) (load t.view path) := by
  refine (FileTree.Reads.read path).bind fun text => ?_
  rcases text with e | text
  · exact .pure _
  · simp only
    cases ofText? text <;> exact .pure _

theorem findAndLoad_reads (script : String) :
    t.Reads (findAndLoad FileTree.files script) (findAndLoad t.view script) := by
  refine (find_reads t _).bind fun found => ?_
  cases found
  · exact .pure _
  · exact load_reads t _

end Config

namespace Command

variable {t : FileTree} {o : Options}

theorem loadConfig_reads (t : FileTree) (o : Options) :
    t.Reads (loadConfig FileTree.files o) (loadConfig t.view o) := by
  rw [loadConfig, loadConfig]
  cases o.config with
  | some path => exact Config.load_reads t path
  | none      =>
      refine (FileTree.Reads.resolve o.task.input).bind fun script => ?_
      refine (Config.findAndLoad_reads t _).bind fun found => ?_
      rcases found with (_ | _ | _) | config <;> exact .pure _

theorem load_reads (t : FileTree) (o : Options) :
    t.Reads (load FileTree.files o) (load t.view o) := by
  refine (FileTree.Reads.read o.task.input).bind fun text => ?_
  rcases text with e | text
  · exact .pure _
  · refine (loadConfig_reads t o).bind fun config => ?_
    rcases config with e | config <;> exact .pure _

theorem load_of_read_error {e : FileError} (h : t.read o.task.input = .error e) :
    load t.view o = .error (.unreadable o.task.input e) := by
  have hview : t.view.read o.task.input = pure (.error e) := h
  rw [load, hview]
  rfl

theorem load_of_read {text : String} (h : t.read o.task.input = .ok text) :
    load t.view o = match loadConfig t.view o with
      | .error e   => .error (.config e)
      | .ok config => .ok ⟨(Path.ofString o.task.input).fileName?.getD "", text, config⟩ := by
  have hview : t.view.read o.task.input = pure (.ok text) := h
  rw [load, hview, pure_bind]
  rcases loadConfig t.view o with e | config <;> rfl

/-- What is loaded is the text of the script, with its settings. -/
theorem load_eq_ok_iff {l : Loaded} : load t.view o = .ok l ↔
    t.read o.task.input = .ok l.text ∧ loadConfig t.view o = .ok l.config ∧
      l.name = (Path.ofString o.task.input).fileName?.getD "" := by
  obtain ⟨name, text, config⟩ := l
  rcases hread : t.read o.task.input with e | written
  · rw [load_of_read_error hread]
    simp
  · rw [load_of_read hread]
    rcases loadConfig t.view o with e | found
    · simp
    · grind

/-! ### What an analysis says -/

namespace Loaded

variable {l : Loaded} {checked : CheckedScript} {found : List Diagnostic} {misuse : Misuse}

/-- The answer to the script, which is the same however it is presented. -/
def verdict (l : Loaded) : Verdict := (Analyzer.new.withScript l.name l.text).check

theorem check_analyzer (l : Loaded) (quiet : Bool) : (l.analyzer quiet).check = l.verdict := rfl

theorem analyse_of_checked (h : l.verdict = .ok (.ok checked)) (quiet json : Bool) :
    l.analyse quiet json = .ok checked := by
  simp only [analyse, check_analyzer, h]

theorem analyse_of_found (h : l.verdict = .ok (.error found)) (quiet json : Bool) :
    l.analyse quiet json = .error
      ⟨1, if json then (Json.array (found.map Diagnostic.toJson)).render 0 ++ "\n" else "",
        l.analysisLog quiet ++ [⟨.error, toString found.length ++ " error(s) found"⟩],
        if json || quiet then [] else found, []⟩ := by
  simp only [analyse, check_analyzer, h]
  rfl

theorem analyse_of_misuse (h : l.verdict = .error misuse) (quiet json : Bool) :
    l.analyse quiet json =
      .error ⟨1, "", l.analysisLog quiet ++ [⟨.error, misuse.message⟩], [], []⟩ := by
  simp only [analyse, check_analyzer, h]
  rfl

theorem analyse_eq_ok_iff {quiet json : Bool} :
    l.analyse quiet json = .ok checked ↔ l.verdict = .ok (.ok checked) := by
  rcases h : l.verdict with misuse | found | checked
  · simp [analyse_of_misuse h]
  · simp [analyse_of_found h]
  · simp [analyse_of_checked h]

/-- Without a checked script there is no success. -/
theorem exitCode_of_analyse {quiet json : Bool} {said : Transcript}
    (h : l.analyse quiet json = .error said) : said.exitCode = 1 := by
  rcases hv : l.verdict with misuse | found | checked
  · rw [analyse_of_misuse hv] at h
    obtain rfl := Except.error.inj h
    rfl
  · rw [analyse_of_found hv] at h
    obtain rfl := Except.error.inj h
    rfl
  · rw [analyse_of_checked hv] at h
    cases h

end Loaded

/-! ### Runs on a tree -/

/-- What a command says on a tree of files, and the tree that it ends with. -/
def performOn (t : FileTree) (o : Options) : Transcript × FileTree :=
  (perform FileTree.files o).run t

/-- What a command line says on a tree of files, and the tree that it ends with. -/
def runOn (t : FileTree) (args : List String) : Transcript × FileTree :=
  (run FileTree.files args).run t

theorem performOn_of_load_error {e : RunError} (h : load t.view o = .error e) :
    performOn t o = ((Transcript.silent 0).failed e, t) := by
  have hload : (load FileTree.files o).run t = (.error e, t) := h ▸ load_reads t o
  rw [performOn, perform, StateT.run_bind, hload]
  rfl

theorem performOn_of_load {l : Loaded} (h : load t.view o = .ok l) :
    performOn t o =
      match o.task with
      | .check _ json         => (l.check o.quiet json, t)
      | .graph _ output title => (writeGraph FileTree.files l o.quiet output title).run t := by
  have hload : (load FileTree.files o).run t = (.ok l, t) := h ▸ load_reads t o
  rw [performOn, perform, StateT.run_bind, hload]
  cases o.task <;> rfl

theorem runOn_of_ok {args : List String} (h : Options.ofArgs args = .ok o) :
    runOn t args = (⟨(performOn t o).1.exitCode, (performOn t o).1.stdout,
      (performOn t o).1.log.filter fun l => (LogFilter.ofOption o.logLevel).shows l.severity,
      (performOn t o).1.reports, (LogFilter.note? o.logLevel).toList⟩, (performOn t o).2) := by
  rw [runOn, run, h]
  rfl

theorem runOn_of_error {args : List String} {stop : Stop} (h : Options.ofArgs args = .error stop) :
    (runOn t args).2 = t := by
  rw [runOn, run, h]
  cases stop <;> rfl

/-! ### Call graphs -/

section Graph

variable {l : Loaded} {quiet : Bool} {checked : CheckedScript} {output title : Option String}
  {path : String}

theorem writeGraph_of_error {said : Transcript} (h : l.analyse quiet false = .error said) :
    (writeGraph FileTree.files l quiet output title).run t = (said, t) := by
  rw [writeGraph, h]
  rfl

theorem writeGraph_none (h : l.analyse quiet false = .ok checked) :
    (writeGraph FileTree.files l quiet none title).run t =
      (⟨0, l.dot checked.script.callGraph title, l.analysisLog quiet, [], []⟩, t) := by
  rw [writeGraph, h]
  rfl

theorem writeGraph_some (h : l.analyse quiet false = .ok checked) :
    (writeGraph FileTree.files l quiet (some path) title).run t =
      match t.write path (l.dot checked.script.callGraph title) with
      | .error e => (Transcript.failed ⟨0, "", l.analysisLog quiet, [], []⟩ (.unwritable path e), t)
      | .ok t'   => (⟨0, "Graph has been exported to: " ++ path ++ "\n", l.analysisLog quiet ++
          [⟨.info, "wrote call graph (" ++ toString checked.script.callGraph.vertexCount
            ++ " procedures, " ++ toString checked.script.callGraph.edgeCount ++ " calls) to "
            ++ path⟩], [], []⟩, t') := by
  simp only [writeGraph, h]
  rw [StateT.run_bind, FileTree.run_write]
  cases t.write path (l.dot checked.script.callGraph title) <;> rfl

end Graph

/-- The drawing that a command asks for, on the files of `t`: the call graph of the text that the
script has there, under the title that is asked for or else the one of the settings there. -/
def Drawn (t : FileTree) (o : Options) (title : Option String) (drawing : String) : Prop :=
  ∃ text config g, t.read o.task.input = .ok text ∧ loadConfig t.view o = .ok config ∧
    (Analyzer.new.withScript ((Path.ofString o.task.input).fileName?.getD "") text).callGraph =
      .ok g ∧
    drawing = g.dot (title.getD config.style.title) config.style

theorem drawn_iff {title : Option String} {drawing : String} : Drawn t o title drawing ↔
    ∃ l checked, load t.view o = .ok l ∧ l.verdict = .ok (.ok checked) ∧
      drawing = l.dot checked.script.callGraph title := by
  constructor
  · rintro ⟨text, config, g, hread, hconfig, hg, rfl⟩
    rw [Analyzer.callGraph_eq] at hg
    obtain ⟨checked, hchecked, rfl⟩ := Verdict.callGraph_eq_ok_iff.mp hg
    exact ⟨⟨_, text, config⟩, checked, load_eq_ok_iff.mpr ⟨hread, hconfig, rfl⟩, hchecked, rfl⟩
  · rintro ⟨⟨name, text, config⟩, checked, hload, hchecked, rfl⟩
    obtain ⟨hread, hconfig, rfl⟩ := load_eq_ok_iff.mp hload
    refine ⟨text, config, _, hread, hconfig, ?_, rfl⟩
    rw [Analyzer.callGraph_eq]
    exact Verdict.callGraph_eq_ok_iff.mpr ⟨checked, hchecked, rfl⟩

/-- Either there is no drawing, and `graph` fails before it writes, or there is one, and only the
writing of it is left to do. -/
theorem fails_or_draws {input : String} {output title : Option String}
    (h : o.task = .graph input output title) :
    (∃ said, performOn t o = (said, t) ∧ said.exitCode = 1 ∧ ∀ drawing, ¬Drawn t o title drawing) ∨
      ∃ l checked, l.analyse o.quiet false = .ok checked ∧
        performOn t o = (writeGraph FileTree.files l o.quiet output title).run t ∧
        ∀ drawing, Drawn t o title drawing ↔ drawing = l.dot checked.script.callGraph title := by
  rcases hload : load t.view o with e | l
  · refine .inl ⟨_, performOn_of_load_error hload, rfl, fun drawing hdrawn => ?_⟩
    obtain ⟨l, checked, hl, -⟩ := drawn_iff.mp hdrawn
    rw [hload] at hl
    cases hl
  · have hrun := performOn_of_load hload
    rw [h] at hrun
    rcases hsaid : l.analyse o.quiet false with said | checked
    · refine .inl ⟨said, hrun.trans (writeGraph_of_error hsaid),
        Loaded.exitCode_of_analyse hsaid, fun drawing hdrawn => ?_⟩
      obtain ⟨l', checked, hl, hchecked, -⟩ := drawn_iff.mp hdrawn
      obtain rfl := Except.ok.inj (hload.symm.trans hl)
      rw [Loaded.analyse_eq_ok_iff.mpr hchecked] at hsaid
      cases hsaid
    · refine .inr ⟨l, checked, hsaid, hrun, fun drawing => ⟨fun hdrawn => ?_, ?_⟩⟩
      · obtain ⟨l', checked', hl, hchecked, rfl⟩ := drawn_iff.mp hdrawn
        obtain rfl := Except.ok.inj (hload.symm.trans hl)
        obtain rfl := Except.ok.inj (hsaid.symm.trans (Loaded.analyse_eq_ok_iff.mpr hchecked))
        rfl
      · rintro rfl
        exact drawn_iff.mpr ⟨l, checked, hload, Loaded.analyse_eq_ok_iff.mp hsaid, rfl⟩

/-! ### Effects of a command line -/

/-- What a command does to the files of `t`: it says `said` and leaves `t'`. -/
structure Effects (t : FileTree) (o : Options) (said : Transcript) (t' : FileTree) : Prop where
  /-- A failure changes nothing, -/
  failed : said.exitCode ≠ 0 → t' = t
  /-- nor does a check, -/
  checked : ∀ input json, o.task = .check input json → t' = t
  /-- nor does a call graph without a file, -/
  printed : ∀ input title, o.task = .graph input none title → t' = t
  /-- which succeeds exactly with its drawing as the answer. -/
  answered : ∀ input title drawing, o.task = .graph input none title →
    (said.exitCode = 0 ∧ said.stdout = drawing ↔ Drawn t o title drawing)
  /-- A call graph with a file succeeds exactly if its drawing, and nothing else, was written. -/
  written : ∀ input path title, o.task = .graph input (some path) title →
    (said.exitCode = 0 ↔ ∃ drawing, Drawn t o title drawing ∧ t.Written path drawing t')

theorem performOn_check {input : String} {json : Bool} (h : o.task = .check input json) :
    (performOn t o).2 = t := by
  rcases hload : load t.view o with e | l
  · rw [performOn_of_load_error hload]
  · rw [performOn_of_load hload, h]

theorem performOn_print {input : String} {title : Option String}
    (h : o.task = .graph input none title) :
    (performOn t o).2 = t ∧ ∀ drawing, (performOn t o).1.exitCode = 0 ∧
      (performOn t o).1.stdout = drawing ↔ Drawn t o title drawing := by
  rcases fails_or_draws (t := t) h with ⟨said, hrun, hexit, hnot⟩ | ⟨l, checked, hl, hrun, hdrawn⟩
  · rw [hrun]
    simp [hexit, hnot]
  · rw [hrun, writeGraph_none hl]
    simp [hdrawn, eq_comm]

theorem performOn_write {input path : String} {title : Option String}
    (h : o.task = .graph input (some path) title) :
    ((performOn t o).1.exitCode ≠ 0 → (performOn t o).2 = t) ∧
      ((performOn t o).1.exitCode = 0 ↔
        ∃ drawing, Drawn t o title drawing ∧ t.Written path drawing (performOn t o).2) := by
  rcases fails_or_draws (t := t) h with ⟨said, hrun, hexit, hnot⟩ | ⟨l, checked, hl, hrun, hdrawn⟩
  · rw [hrun]
    simp [hexit, hnot]
  · rw [hrun, writeGraph_some hl]
    rcases hw : t.write path (l.dot checked.script.callGraph title) with e | t'
    · refine ⟨fun _ => rfl, nofun, ?_⟩
      rintro ⟨drawing, hd, hwritten⟩
      obtain rfl := (hdrawn drawing).mp hd
      obtain ⟨t'', hok⟩ := hwritten.write_eq_ok
      rw [hw] at hok
      cases hok
    · exact ⟨fun hne => absurd rfl hne, fun _ => ⟨_, (hdrawn _).mpr rfl,
        FileTree.written_of_write hw⟩, fun _ => rfl⟩

theorem performOn_effects (t : FileTree) (o : Options) :
    Effects t o (performOn t o).1 (performOn t o).2 where
  failed hne := by
    cases htask : o.task with
    | check input json         => exact performOn_check htask
    | graph input output title =>
        cases output with
        | none      => exact (performOn_print htask).1
        | some path => exact (performOn_write htask).1 hne
  checked _ _ := performOn_check
  printed _ _ htask := (performOn_print htask).1
  answered _ _ drawing htask := (performOn_print htask).2 drawing
  written _ _ _ htask := (performOn_write htask).2

/-- **A run that fails leaves the files as they were, and one that succeeds writes at most the
drawing it was asked for**; a command line without a command changes nothing. -/
theorem effects (t : FileTree) (args : List String) :
    match Options.ofArgs args with
    | .error _ => (runOn t args).2 = t
    | .ok o    => Effects t o (runOn t args).1 (runOn t args).2 := by
  rcases h : Options.ofArgs args with stop | o
  · exact runOn_of_error h
  · obtain ⟨failed, checked, printed, answered, written⟩ := performOn_effects t o
    rw [runOn_of_ok h]
    exact ⟨failed, checked, printed, answered, written⟩

end Command

end ProcScript
