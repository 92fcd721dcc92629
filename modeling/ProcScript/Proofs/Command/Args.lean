import ProcScript.Command.Args

/-!
# Command — options added in front

**An option that stands before a command line which does not give it counts as if it had been given
there** (`Options.ofArgs_quiet`, `Options.ofArgs_logLevel`).  What was given before an argument is
looked at only for whether the same option is given twice, so a reading goes on alike with one
option more in front (`Level.read_cons`).
-/

namespace ProcScript.Command

variable {x : Opt × String} {g g' : Given} {o : Opt} {value : String}

namespace Given

/-- With an option and its value in front of what was given. -/
def cons (x : Opt × String) (g : Given) : Given := { g with values := x :: g.values }

theorem lookup_cons_of_ne (h : o ≠ x.1) : (g.cons x).values.lookup o = g.values.lookup o := by
  rw [cons, List.lookup_cons, beq_eq_false_iff_ne.mpr h]

theorem has_cons_of_ne (h : o ≠ x.1) : (g.cons x).has o = g.has o := by
  rw [has, lookup_cons_of_ne h, has]

theorem add_cons (h : g.add o value = .ok g') (hx : g'.has x.1 = false) :
    g.has x.1 = false ∧ (g.cons x).add o value = .ok (g'.cons x) := by
  rw [add] at h ⊢
  split at h
  · cases h
  · rename_i hnew
    obtain rfl := Except.ok.inj h
    rw [has, List.lookup_append, Option.isSome_or, Bool.or_eq_false_iff] at hx
    have hne : o ≠ x.1 := by
      rintro rfl
      simp at hx
    rw [has_cons_of_ne hne, if_neg hnew]
    exact ⟨hx.1, rfl⟩

theorem switch_cons (h : g.switch o = .ok g') (hx : g'.has x.1 = false) :
    g.has x.1 = false ∧ (g.cons x).switch o = .ok (g'.cons x) := by
  cases o with
  | help | version => cases h
  | _ => exact add_cons h hx

theorem addInput_cons (h : g.addInput value = .ok g') (hx : g'.has x.1 = false) :
    g.has x.1 = false ∧ (g.cons x).addInput value = .ok (g'.cons x) := by
  rw [addInput] at h ⊢
  split at h
  · cases h
  · obtain rfl := Except.ok.inj h
    exact ⟨hx, if_neg ‹_›⟩

end Given

namespace Level

variable {l : Level}

theorem bind_eq_ok {ε α β : Type} {r : Except ε α} {f : α → Except ε β} {b : β}
    (h : (r >>= f) = .ok b) : ∃ a, r = .ok a ∧ f a = .ok b := by
  rcases r with e | a
  · cases h
  · exact ⟨a, rfl, h⟩

/-- A step that goes on alike with `x` in front, and the end of the reading behind it. -/
theorem done_cons {r r' : Except Stop Given} {p pending : Option Opt}
    (hr : ∀ {g₁}, r = .ok g₁ → g₁.has x.1 = false → g.has x.1 = false ∧ r' = .ok (g₁.cons x))
    (h : (do return (← r, p)) = Except.ok (g', pending)) (hx : g'.has x.1 = false) :
    g.has x.1 = false ∧ (do return (← r', p)) = Except.ok (g'.cons x, pending) := by
  obtain ⟨g₁, hg₁, hok⟩ := bind_eq_ok h
  obtain ⟨rfl, rfl⟩ := Prod.mk.inj (Except.ok.inj hok)
  obtain ⟨hg, rfl⟩ := hr hg₁ hx
  exact ⟨hg, rfl⟩

theorem readShort_cons {pending : Option Opt} :
    {g : Given} → (cs : List Char) → l.readShort g cs = .ok (g', pending) → g'.has x.1 = false →
      g.has x.1 = false ∧ l.readShort (g.cons x) cs = .ok (g'.cons x, pending)
  | g, [],      h, hx => by
      rw [readShort] at h ⊢
      obtain ⟨rfl, rfl⟩ := Prod.mk.inj (Except.ok.inj h)
      exact ⟨hx, rfl⟩
  | g, c :: cs, h, hx => by
      rw [readShort] at h ⊢
      cases hopt : l.short.lookup c with
      | none   =>
          simp only [hopt] at h
          cases h
      | some o =>
          cases hvalue : o.takesValue with
          | true  =>
              simp only [hopt, hvalue, if_true] at h ⊢
              split at h
              · obtain ⟨rfl, rfl⟩ := Prod.mk.inj (Except.ok.inj h)
                exact ⟨hx, rfl⟩
              · exact done_cons Given.add_cons h hx
              · exact done_cons Given.add_cons h hx
          | false =>
              simp only [hopt, hvalue, Bool.false_eq_true, if_false] at h ⊢
              obtain ⟨g₁, hswitch, hrest⟩ := bind_eq_ok h
              obtain ⟨hg₁, hrest'⟩ := readShort_cons cs hrest hx
              obtain ⟨hg, hcons⟩ := Given.switch_cons hswitch hg₁
              exact ⟨hg, by rw [hcons]; exact hrest'⟩

theorem readLong_cons {pending : Option Opt} {cs : List Char}
    (h : l.readLong g cs = .ok (g', pending)) (hx : g'.has x.1 = false) :
    g.has x.1 = false ∧ l.readLong (g.cons x) cs = .ok (g'.cons x, pending) := by
  rw [readLong] at h ⊢
  cases hopt : l.long.lookup (String.ofList (cs.takeWhile (· ≠ '='))) with
  | none   =>
      simp only [hopt] at h
      cases h
  | some o =>
      cases hvalue : o.takesValue <;> cases htail : cs.dropWhile (· ≠ '=') <;>
        simp only [hopt, hvalue, htail, Bool.false_eq_true, if_false, if_true] at h ⊢
      · exact done_cons Given.switch_cons h hx
      · cases h
      · obtain ⟨rfl, rfl⟩ := Prod.mk.inj (Except.ok.inj h)
        exact ⟨hx, rfl⟩
      · exact done_cons Given.add_cons h hx

theorem addInputs_cons :
    {g : Given} → (args : List String) → args.foldlM Given.addInput g = .ok g' →
      g'.has x.1 = false →
        g.has x.1 = false ∧ args.foldlM Given.addInput (g.cons x) = .ok (g'.cons x)
  | g, [],          h, hx => by
      obtain rfl := Except.ok.inj h
      exact ⟨hx, rfl⟩
  | g, arg :: args, h, hx => by
      obtain ⟨g₁, hadd, hrest⟩ := bind_eq_ok h
      obtain ⟨hg₁, hrest'⟩ := addInputs_cons args hrest hx
      obtain ⟨hg, hcons⟩ := Given.addInput_cons hadd hg₁
      exact ⟨hg, by rw [List.foldlM_cons, hcons]; exact hrest'⟩

theorem takeValue_cons (h : takeValue g o value = .ok g') (hx : g'.has x.1 = false) :
    g.has x.1 = false ∧ takeValue (g.cons x) o value = .ok (g'.cons x) := by
  rw [takeValue] at h ⊢
  split at h
  · cases h
  · rw [if_neg ‹_›]
    exact Given.add_cons h hx

/-- The options that an argument names, if it names any; the last may still need its value. -/
def named (l : Level) (g : Given) (arg : String) : Option (Except Stop (Given × Option Opt)) :=
  match arg.toList with
  | '-' :: '-' :: c :: cs => some (l.readLong g (c :: cs))
  | ['-', '-']            => none
  | '-' :: c :: cs        => some (l.readShort g (c :: cs))
  | _                     => none

theorem read_cons_eq (g : Given) (arg : String) (args : List String) :
    l.read g (arg :: args) =
      match l.named g arg with
      | some (.error e)       => .error e
      | some (.ok (g, none))  => l.read g args
      | some (.ok (g, some o)) =>
          match args with
          | []            => .error .refused
          | value :: args => do l.read (← takeValue g o value) args
      | none =>
          if arg = "--" then
            if l.takesInput then do return (← args.foldlM Given.addInput g, [])
            else .error .refused
          else if l.takesInput then do l.read (← g.addInput arg) args
          else .ok (g, arg :: args) := by
  rw [read]
  rfl

theorem named_cons {pending : Option Opt} {arg : String}
    (h : l.named g arg = some (.ok (g', pending))) (hx : g'.has x.1 = false) :
    g.has x.1 = false ∧ l.named (g.cons x) arg = some (.ok (g'.cons x, pending)) := by
  rw [named] at h ⊢
  split at h
  · obtain ⟨hg, hcons⟩ := readLong_cons (Option.some.inj h) hx
    exact ⟨hg, congrArg some hcons⟩
  · cases h
  · obtain ⟨hg, hcons⟩ := readShort_cons _ (Option.some.inj h) hx
    exact ⟨hg, congrArg some hcons⟩
  · cases h

theorem named_eq_none (g g' : Given) {arg : String} (h : l.named g arg = none) :
    l.named g' arg = none := by
  rw [named] at h ⊢
  split at h
  · cases h
  · rfl
  · cases h
  · rfl

/-- **A reading that does not give the option `x` goes on alike with `x` in front of what was
given.** -/
theorem read_cons {rest : List String} :
    {g : Given} → (args : List String) → l.read g args = .ok (g', rest) → g'.has x.1 = false →
      g.has x.1 = false ∧ l.read (g.cons x) args = .ok (g'.cons x, rest)
  | g, [],          h, hx => by
      rw [read] at h ⊢
      obtain ⟨rfl, rfl⟩ := Prod.mk.inj (Except.ok.inj h)
      exact ⟨hx, rfl⟩
  | g, arg :: args, h, hx => by
      rw [read_cons_eq] at h ⊢
      rcases hnamed : l.named g arg with _ | e | ⟨g₁, _ | o⟩
      · rw [named_eq_none g (g.cons x) hnamed]
        simp only [hnamed] at h ⊢
        split at h
        · rw [if_pos ‹_›]
          split at h
          · rw [if_pos ‹_›]
            obtain ⟨g₁, hinputs, hok⟩ := bind_eq_ok h
            obtain ⟨rfl, rfl⟩ := Prod.mk.inj (Except.ok.inj hok)
            obtain ⟨hg, hcons⟩ := addInputs_cons args hinputs hx
            exact ⟨hg, by rw [hcons]; rfl⟩
          · cases h
        · rw [if_neg ‹_›]
          split at h
          · rw [if_pos ‹_›]
            obtain ⟨g₁, hadd, hrest⟩ := bind_eq_ok h
            obtain ⟨hg₁, hrest'⟩ := read_cons args hrest hx
            obtain ⟨hg, hcons⟩ := Given.addInput_cons hadd hg₁
            exact ⟨hg, by rw [hcons]; exact hrest'⟩
          · rw [if_neg ‹_›]
            obtain ⟨rfl, rfl⟩ := Prod.mk.inj (Except.ok.inj h)
            exact ⟨hx, rfl⟩
      · simp only [hnamed] at h
        cases h
      · simp only [hnamed] at h
        obtain ⟨hg₁, hrest⟩ := read_cons args h hx
        obtain ⟨hg, hcons⟩ := named_cons hnamed hg₁
        exact ⟨hg, by rw [hcons]; exact hrest⟩
      · simp only [hnamed] at h
        cases args with
        | nil => cases h
        | cons value args =>
            obtain ⟨g₂, htake, hrest⟩ := bind_eq_ok h
            obtain ⟨hg₂, hrest'⟩ := read_cons args hrest hx
            obtain ⟨hg₁, htake'⟩ := takeValue_cons htake hg₂
            obtain ⟨hg, hcons⟩ := named_cons hnamed hg₁
            refine ⟨hg, ?_⟩
            rw [hcons]
            simp only
            rw [htake']
            exact hrest'

end Level

/-! ### Options in front of a command line -/

namespace Options

variable {args rest : List String} {o : Options} {before : Given}

/-- What stands behind the options before a command. -/
def request (before : Given) (rest : List String) : Except Stop Options := do
  match rest with
  | "check" :: rest =>
      let (g, input) ← readTask .check rest
      return .of (.check input (g.has .json)) before g
  | "graph" :: rest =>
      let (g, input) ← readTask .graph rest
      return .of (.graph input (g.values.lookup .output) (g.values.lookup .title)) before g
  | "help" :: rest =>
      throw (if [[], ["check"], ["graph"], ["help"]].contains rest then .help else .refused)
  | _ => throw .refused

theorem ofArgs_eq (args : List String) :
    ofArgs args = Level.top.read .none args >>= fun r => request r.1 r.2 := by
  have hhelp (rest : List String) : (if rest ∈ [[], ["check"], ["graph"], ["help"]] then Stop.help
      else .refused) =
        if [[], ["check"], ["graph"], ["help"]].contains rest then .help else .refused := by
    simp only [List.contains_iff_mem]
  simp only [request, ← hhelp]
  rfl

/-- The task and what stands behind the command do not depend on what stands before it. -/
theorem request_eq_ok (h : request before rest = .ok o) :
    ∃ task behind, o = .of task before behind ∧
      ∀ before', request before' rest = .ok (.of task before' behind) := by
  unfold request at h
  split at h
  · obtain ⟨⟨g, input⟩, hread, hok⟩ := Level.bind_eq_ok h
    refine ⟨.check input (g.has .json), g, (Except.ok.inj hok).symm, fun before' => ?_⟩
    rw [request, hread]
    rfl
  · obtain ⟨⟨g, input⟩, hread, hok⟩ := Level.bind_eq_ok h
    refine ⟨.graph input (g.values.lookup .output) (g.values.lookup .title), g,
      (Except.ok.inj hok).symm, fun before' => ?_⟩
    rw [request, hread]
    rfl
  · cases h
  · cases h

/-- A command line is read alike behind one more argument that gives an option it does not give
itself, up to that option. -/
theorem ofArgs_cons {x : Opt × String} {arg : String}
    (harg : Level.top.named .none arg = some (.ok (Given.none.cons x, none)))
    (h : ofArgs args = .ok o) (hnew : ∀ task before behind, o = .of task before behind →
      before.has x.1 = false) :
    ∃ task before behind, o = .of task before behind ∧
      ofArgs (arg :: args) = .ok (.of task (before.cons x) behind) := by
  rw [ofArgs_eq] at h
  obtain ⟨⟨before, rest⟩, hread, hrequest⟩ := Level.bind_eq_ok h
  obtain ⟨task, behind, rfl, hany⟩ := request_eq_ok hrequest
  obtain ⟨-, hcons⟩ := Level.read_cons args hread (hnew task before behind rfl)
  refine ⟨task, before, behind, rfl, ?_⟩
  rw [ofArgs_eq, Level.read_cons_eq, harg]
  simp only
  rw [hcons]
  exact hany (before.cons x)

/-- **A command line that is not quiet is made quiet**, and is the same otherwise. -/
theorem ofArgs_quiet (h : ofArgs args = .ok o) (hquiet : o.quiet = false) :
    ofArgs ("--quiet" :: args) = .ok { o with quiet := true } := by
  have harg : Level.top.named .none "--quiet" =
      some (.ok (Given.none.cons (.quiet, ""), none)) := rfl
  obtain ⟨task, before, behind, rfl, hok⟩ := ofArgs_cons harg h <| by
    rintro task before behind rfl
    exact (Bool.or_eq_false_iff.mp hquiet).1
  rw [hok]
  rfl

theorem named_logLevel (level : String) : Level.top.named .none ("--log-level=" ++ level) =
    some (.ok (Given.none.cons (.logLevel, level), none)) := by
  let name := ['o', 'g', '-', 'l', 'e', 'v', 'e', 'l']
  have hchars : ("--log-level=" ++ level).toList =
      '-' :: '-' :: 'l' :: (name ++ '=' :: level.toList) := by
    simp [name]
  have hname : ('l' :: (name ++ '=' :: level.toList)).takeWhile (· ≠ '=') = 'l' :: name := by
    simp [name]
  have hvalue : ('l' :: (name ++ '=' :: level.toList)).dropWhile (· ≠ '=') =
      '=' :: level.toList := by
    simp [name]
  have hopt : Level.top.long.lookup (String.ofList ('l' :: name)) = some .logLevel := rfl
  rw [Level.named, hchars]
  simp only [Level.readLong, hname, hvalue, hopt, String.ofList_toList]
  rfl

/-- **A command line without a log level is given one**, whatever it is, and is the same
otherwise. -/
theorem ofArgs_logLevel (h : ofArgs args = .ok o) (hlevel : o.logLevel = none) (level : String) :
    ofArgs (("--log-level=" ++ level) :: args) = .ok { o with logLevel := some level } := by
  obtain ⟨task, before, behind, rfl, hok⟩ := ofArgs_cons (named_logLevel level) h <| by
    rintro task before behind rfl
    rw [Given.has, (Option.or_eq_none_iff.mp hlevel).2]
    rfl
  rw [hok]
  simp only [of, (Option.or_eq_none_iff.mp hlevel).1]
  rfl

end Options

end ProcScript.Command
