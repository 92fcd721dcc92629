import Mathlib.Data.List.Induction
import ProcScript.Proofs.Check.Trace
import ProcScript.Proofs.Digraph

/-!
# Check — what the stores hold

A checking run writes to three stores: the table of the procedures, the scope of the procedure it
is in, and the types of the expressions.  What was written first stays, whatever is written behind
it.  A table holds the first entry of each name, in the order of the registrations
(`ProcedureTable.entries_registered`).  A scope binds a name to its first definition; what comes
behind the definition can give a variable a value, and nothing else (`Scope.find?_told`).  An
expression has the type that was recorded for it first (`ExprTypes.get_recordAll`).  So a write that
comes too late changes nothing and is answered as such (`Checking.stores_keepFirst`).
-/

namespace ProcScript

/-! ### The first of each key -/

section
variable {α κ : Type} [DecidableEq κ] (key : α → κ)

/-- The members whose key is new. -/
def firsts (as : List α) : List α :=
  ((withEarlier as).filter fun m => key m.2 ∉ m.1.map key).map Prod.snd

theorem firsts_append_singleton (as : List α) (a : α) :
    firsts key (as ++ [a]) = firsts key as ++ if key a ∈ as.map key then [] else [a] := by
  rw [firsts, withEarlier_append_singleton, List.filter_append, List.map_append, firsts,
    List.filter_cons, List.filter_nil]
  by_cases h : key a ∈ as.map key
  · rw [if_pos h, if_neg (by simpa only [decide_eq_true_eq, not_not]), List.map_nil]
  · rw [if_neg h, if_pos (by simpa only [decide_eq_true_eq]), List.map_singleton]

theorem firsts_map {β : Type} (f : β → α) (bs : List β) :
    firsts key (bs.map f) = (firsts (key ∘ f) bs).map f := by
  induction bs using List.reverseRecOn with
  | nil => rfl
  | append_singleton bs b ih =>
      rw [List.map_append, List.map_singleton, firsts_append_singleton, firsts_append_singleton, ih,
        List.map_map, List.map_append, Function.comp_apply]
      split <;> rfl

/-- Each key has one first member. -/
theorem map_firsts (as : List α) : (firsts key as).map key = (as.map key).eraseDups := by
  induction as using List.reverseRecOn with
  | nil => rfl
  | append_singleton as a ih =>
      rw [firsts_append_singleton, List.map_append, List.map_append, List.map_singleton,
        Digraph.eraseDups_append_singleton, ih]
      split
      · exact List.append_nil _
      · rfl

/-- Looking for a key finds the first member that has it. -/
theorem find?_firsts (as : List α) (k : κ) :
    (firsts key as).find? (fun a => key a = k) = as.find? fun a => key a = k := by
  induction as using List.reverseRecOn with
  | nil => rfl
  | append_singleton as a ih =>
      rw [firsts_append_singleton, List.find?_append, List.find?_append, ih]
      by_cases h : key a ∈ as.map key
      · rw [if_pos h, List.find?_nil, Option.or_none]
        by_cases ha : key a = k
        · -- An earlier member has the key.
          obtain ⟨b, hb, hk⟩ := List.mem_map.mp h
          have hs : (as.find? fun b => key b = k).isSome := by
            rw [List.find?_isSome]
            exact ⟨b, hb, by simp [hk, ha]⟩
          rw [Option.or_of_isSome hs]
        · simp [ha]
      · rw [if_neg h]

end

/-! ### The table of the procedures -/

namespace ProcedureTable

/-- The table behind a registration; one that is refused leaves it as it was. -/
def add (t : ProcedureTable) (e : ProcedureEntry) : ProcedureTable :=
  (t.register e).toOption.getD t

/-- The table behind any number of registrations. -/
def registered (es : List ProcedureEntry) : ProcedureTable := es.foldl add .empty

variable {t : ProcedureTable} {e : ProcedureEntry} {es : List ProcedureEntry}

theorem contains_iff_mem_names {name : String} : t.contains name = true ↔ name ∈ t.names := by
  simp [contains, find?, names]

theorem register_of_mem (h : e.name ∈ t.names) : t.register e = .error e :=
  register_of_contains (contains_iff_mem_names.mpr h)

theorem add_of_mem (h : e.name ∈ t.names) : t.add e = t := by
  rw [add, register_of_mem h]
  rfl

theorem register_of_notMem (h : e.name ∉ t.names) : t.register e = .ok (t.add e) := by
  have hr := register_of_not_contains (mt contains_iff_mem_names.mp h)
  rw [add, hr]
  rfl

theorem entries_add (t : ProcedureTable) (e : ProcedureEntry) :
    (t.add e).entries = t.entries ++ if e.name ∈ t.names then [] else [e] := by
  by_cases h : e.name ∈ t.names
  · rw [add_of_mem h, if_pos h, List.append_nil]
  · rw [add, register_of_not_contains (mt contains_iff_mem_names.mp h), if_neg h]
    rfl

theorem registered_append_singleton (es : List ProcedureEntry) (e : ProcedureEntry) :
    registered (es ++ [e]) = (registered es).add e :=
  List.foldl_append

/-- **The table holds the first entry of each name**, in the order of the registrations. -/
theorem entries_registered (es : List ProcedureEntry) :
    (registered es).entries = firsts ProcedureEntry.name es := by
  induction es using List.reverseRecOn with
  | nil => rfl
  | append_singleton es e ih =>
      have hmem : e.name ∈ (registered es).names ↔ e.name ∈ es.map ProcedureEntry.name := by
        rw [names, ih, map_firsts, List.mem_eraseDups]
      rw [registered_append_singleton, entries_add, firsts_append_singleton, ih]
      simp only [hmem]

theorem names_registered (es : List ProcedureEntry) :
    (registered es).names = (es.map ProcedureEntry.name).eraseDups := by
  rw [names, entries_registered, map_firsts]

theorem mem_names_registered_iff {name : String} :
    name ∈ (registered es).names ↔ name ∈ es.map ProcedureEntry.name := by
  rw [names_registered, List.mem_eraseDups]

/-- What holds of the table behind the registrations `es`. -/
structure KeepsFirst (es : List ProcedureEntry) : Prop where
  /-- It holds the first entry of each name, in the order of the registrations; -/
  entries : (registered es).entries = firsts ProcedureEntry.name es
  /-- so each name stands in it once, -/
  names : (registered es).names = (es.map ProcedureEntry.name).eraseDups
  /-- and means the entry that was registered first. -/
  find? : ∀ name, (registered es).find? name = es.find? fun e => e.name = name
  /-- One more entry is handed back if its name was registered, -/
  register : ∀ e, (registered es).register e =
    if e.name ∈ es.map ProcedureEntry.name then .error e else .ok (registered (es ++ [e]))
  /-- and then leaves the table as it was, also for what is registered behind it. -/
  refused : ∀ e, e.name ∈ es.map ProcedureEntry.name →
    ∀ later, registered (es ++ e :: later) = registered (es ++ later)

theorem registered_keepsFirst (es : List ProcedureEntry) : KeepsFirst es where
  entries := entries_registered es
  names := names_registered es
  find? name := by rw [ProcedureTable.find?, entries_registered, find?_firsts]
  register e := by
    by_cases h : e.name ∈ es.map ProcedureEntry.name
    · rw [if_pos h, register_of_mem (mem_names_registered_iff.mpr h)]
    · rw [if_neg h, register_of_notMem (mt mem_names_registered_iff.mp h),
        registered_append_singleton]
  refused e h later := by
    have hadd : (registered es).add e = registered es :=
      add_of_mem (mem_names_registered_iff.mpr h)
    rw [registered, registered, List.foldl_append, List.foldl_append, List.foldl_cons, ← registered,
      hadd]

end ProcedureTable

/-! ### The names of a procedure -/

namespace Scope

/-- What a scope is told. -/
inductive Op where
  | define (b : Binding)
  | mark (name : String)
  deriving DecidableEq

/-- The name that is defined. -/
def Op.defined? : Op → Option String
  | define b => some b.name
  | mark _   => none

/-- The scope behind one operation; a definition that is refused leaves it as it was. -/
def tell (s : Scope) : Op → Scope
  | .define b  => (s.define b).toOption.getD s
  | .mark name => s.markInitialized name

/-- The scope behind any number of operations on the empty one. -/
def told (ops : List Op) : Scope := ops.foldl tell .empty

/-- Among the operations, `b` is the first definition of `name`, and `later` comes behind it. -/
def First (name : String) (ops : List Op) (b : Binding) (later : List Op) : Prop :=
  ∃ before, ops = before ++ .define b :: later ∧ b.name = name ∧
    name ∉ before.filterMap Op.defined?

end Scope

namespace Binding

/-- The binding behind operations on the scope: a parameter stays what it is, and a variable has a
value if it had one or was marked. -/
def behind : Binding → List Scope.Op → Binding
  | param f,                _     => param f
  | var name type loc init, later => var name type loc (init || .mark name ∈ later)

theorem behind_nil (b : Binding) : b.behind [] = b := by
  cases b <;> simp [behind]

theorem behind_cons (b : Binding) (op : Scope.Op) (later : List Scope.Op) :
    b.behind (op :: later) = (b.behind [op]).behind later := by
  cases b with
  | param f => rfl
  | var name type loc init => simp [behind, Bool.or_assoc]

theorem behind_define (b b' : Binding) : b.behind [.define b'] = b := by
  cases b <;> simp [behind]

theorem behind_mark (b : Binding) (target : String) :
    b.behind [.mark target] = if b.name = target then b.assigned else b := by
  cases b with
  | param f => simp [behind, assigned]
  | var name type loc init =>
      by_cases hn : name = target <;> simp [behind, assigned, Binding.name, hn]

theorem loc_behind (b : Binding) (later : List Scope.Op) : (b.behind later).loc = b.loc := by
  cases b <;> rfl

end Binding

namespace Scope

variable {s : Scope} {ops later : List Op} {b first : Binding} {name : String}

/-! #### One operation -/

theorem find?_eq_none_iff : s.find? name = none ↔ name ∉ s.bindings.map Binding.name := by
  simp [find?]

theorem tell_define_of_none (h : s.find? b.name = none) :
    s.tell (.define b) = ⟨s.bindings ++ [b]⟩ := by
  rw [tell, define_of_none h]
  rfl

theorem tell_define_of_some (h : s.find? b.name = some first) : s.tell (.define b) = s := by
  rw [tell, define_of_some h]
  rfl

/-- A definition counts for its name if there was none. -/
theorem find?_tell_define (s : Scope) (b : Binding) (name : String) :
    (s.tell (.define b)).find? name =
      (s.find? name).or (if b.name = name then some b else none) := by
  cases hs : s.find? b.name with
  | none =>
      rw [tell_define_of_none hs, find?_define (define_of_none hs)]
      by_cases hn : b.name = name
      · subst hn
        rw [if_pos rfl, if_pos rfl, hs, Option.none_or]
      · rw [if_neg hn, if_neg hn, Option.or_none]
  | some first =>
      rw [tell_define_of_some hs]
      by_cases hn : b.name = name
      · subst hn
        rw [hs, Option.some_or]
      · rw [if_neg hn, Option.or_none]

/-- A name that is bound stays bound, and only marking it makes a difference. -/
theorem find?_tell_of_some (h : s.find? name = some b) (op : Op) :
    (s.tell op).find? name = some (b.behind [op]) := by
  cases op with
  | define b' => rw [find?_tell_define, h, Option.some_or, Binding.behind_define]
  | mark target =>
      have hn : b.name = name := by simpa using List.find?_some h
      rw [tell, find?_markInitialized, h, Binding.behind_mark, hn]
      split <;> rfl

theorem find?_tell_of_none (h : s.find? name = none) {op : Op} (hop : op.defined? ≠ some name) :
    (s.tell op).find? name = none := by
  cases op with
  | define b =>
      have hb : b.name ≠ name := fun hb => hop (congrArg some hb)
      rw [find?_tell_define, h, if_neg hb, Option.or_none]
  | mark target =>
      rw [tell, find?_markInitialized, h]
      split <;> rfl

/-- A definition of a new name adds it, and nothing else does. -/
theorem names_tell {l : List String} (h : s.bindings.map Binding.name = l.eraseDups) (op : Op) :
    (s.tell op).bindings.map Binding.name = (l ++ op.defined?.toList).eraseDups := by
  cases op with
  | define b =>
      rw [Op.defined?, Option.toList_some, Digraph.eraseDups_append_singleton]
      have hmem : s.find? b.name = none ↔ b.name ∉ l := by
        rw [find?_eq_none_iff, h, List.mem_eraseDups]
      cases hs : s.find? b.name with
      | none =>
          rw [if_neg (hmem.mp hs), tell_define_of_none hs, ← h]
          exact List.map_append
      | some first =>
          have hb : b.name ∈ l := by
            by_contra hb
            rw [hmem.mpr hb] at hs
            cases hs
          rw [if_pos hb, tell_define_of_some hs, ← h]
  | mark target =>
      rw [Op.defined?, Option.toList_none, List.append_nil, ← h, tell, markInitialized,
        List.map_map]
      simp only [Function.comp_def, name_mark]

/-! #### Any number of operations -/

theorem find?_foldl_tell_of_some (h : s.find? name = some b) (ops : List Op) :
    (ops.foldl tell s).find? name = some (b.behind ops) := by
  induction ops generalizing s b with
  | nil => exact h.trans (congrArg some b.behind_nil.symm)
  | cons op ops ih => rw [List.foldl_cons, ih (find?_tell_of_some h op), ← Binding.behind_cons]

theorem told_append_singleton (ops : List Op) (op : Op) :
    told (ops ++ [op]) = (told ops).tell op :=
  List.foldl_append

/-- A name that is not defined is not bound. -/
theorem find?_told_of_notMem (h : name ∉ ops.filterMap Op.defined?) :
    (told ops).find? name = none := by
  induction ops using List.reverseRecOn with
  | nil => rfl
  | append_singleton ops op ih =>
      rw [List.filterMap_append, List.mem_append, not_or] at h
      rw [told_append_singleton]
      refine find?_tell_of_none (ih h.1) fun hop => h.2 ?_
      simp [hop]

/-- **A name is bound to its first definition.** -/
theorem find?_told (h : First name ops b later) :
    (told ops).find? name = some (b.behind later) := by
  obtain ⟨before, rfl, rfl, hbefore⟩ := h
  have hb : ((told before).tell (.define b)).find? b.name = some b := by
    rw [find?_tell_define, find?_told_of_notMem hbefore, if_pos rfl, Option.none_or]
  rw [told, List.foldl_append, List.foldl_cons]
  exact find?_foldl_tell_of_some hb later

/-- A name that is defined has a first definition. -/
theorem exists_first (h : name ∈ ops.filterMap Op.defined?) :
    ∃ b later, First name ops b later := by
  induction ops using List.reverseRecOn with
  | nil => cases h
  | append_singleton ops op ih =>
      by_cases hops : name ∈ ops.filterMap Op.defined?
      · obtain ⟨b, later, before, rfl, hb⟩ := ih hops
        exact ⟨b, later ++ [op], before, by simp, hb⟩
      · rw [List.filterMap_append, List.mem_append] at h
        have hop : op.defined? = some name := by simpa using h.resolve_left hops
        cases op with
        | define b => exact ⟨b, [], ops, rfl, Option.some.inj hop, hops⟩
        | mark target => cases hop

theorem find?_told_eq_some_iff :
    (told ops).find? name = some b ↔ ∃ b₀ later, First name ops b₀ later ∧ b = b₀.behind later := by
  constructor
  · intro h
    have hname : name ∈ ops.filterMap Op.defined? := by
      by_contra hname
      rw [find?_told_of_notMem hname] at h
      cases h
    obtain ⟨b₀, later, hfirst⟩ := exists_first hname
    rw [find?_told hfirst] at h
    exact ⟨b₀, later, hfirst, (Option.some.inj h).symm⟩
  · rintro ⟨b₀, later, hfirst, rfl⟩
    exact find?_told hfirst

theorem find?_told_eq_none_iff :
    (told ops).find? name = none ↔ name ∉ ops.filterMap Op.defined? := by
  refine ⟨fun h hname => ?_, find?_told_of_notMem⟩
  obtain ⟨b, later, hfirst⟩ := exists_first hname
  rw [find?_told hfirst] at h
  cases h

/-- The names that are defined are bound, each once. -/
theorem names_told (ops : List Op) :
    (told ops).bindings.map Binding.name = (ops.filterMap Op.defined?).eraseDups := by
  induction ops using List.reverseRecOn with
  | nil => rfl
  | append_singleton ops op ih =>
      rw [told_append_singleton, names_tell ih, List.filterMap_append]
      cases hop : op.defined? <;> simp [hop]

/-- What holds of the scope behind the operations `ops`. -/
structure KeepsFirst (ops : List Op) : Prop where
  /-- A name is bound to its first definition, as what comes behind that left it, -/
  bound : ∀ name b, (told ops).find? name = some b ↔
    ∃ b₀ later, First name ops b₀ later ∧ b = b₀.behind later
  /-- and it is not bound if it is not defined. -/
  unbound : ∀ name, (told ops).find? name = none ↔ name ∉ ops.filterMap Op.defined?
  /-- A name is bound once. -/
  names : (told ops).bindings.map Binding.name = (ops.filterMap Op.defined?).eraseDups
  /-- One more definition of a new name is accepted, -/
  accepted : ∀ b, b.name ∉ ops.filterMap Op.defined? →
    (told ops).define b = .ok (told (ops ++ [.define b]))
  /-- and of a name that is bound it is refused, told where the first one is, and changes nothing,
  also for what comes behind it. -/
  refused : ∀ b first later, First b.name ops first later →
    (told ops).define b = .error first.loc ∧
      ∀ after, told (ops ++ .define b :: after) = told (ops ++ after)
  /-- A mark gives a variable of its name a value, and touches no other name. -/
  marked : ∀ target name, (told (ops ++ [.mark target])).find? name =
    if name = target then ((told ops).find? name).map Binding.assigned else (told ops).find? name

theorem told_keepsFirst (ops : List Op) : KeepsFirst ops where
  bound _ _ := find?_told_eq_some_iff
  unbound _ := find?_told_eq_none_iff
  names := names_told ops
  accepted b h := by
    have hb := find?_told_of_notMem h
    rw [define_of_none hb, told_append_singleton, tell_define_of_none hb]
  refused b first later h := by
    have hb := find?_told h
    refine ⟨?_, fun after => ?_⟩
    · rw [define_of_some hb, first.loc_behind]
    · rw [told, told, List.foldl_append, List.foldl_append, List.foldl_cons, ← told,
        tell_define_of_some hb]
  marked target name := by
    rw [told_append_singleton]
    exact find?_markInitialized _ target name

/-- A parameter that is declared again and marked, and a variable that is marked behind its
definition. -/
example : (told [.define (.param ⟨"a", .bool, .none⟩), .define (.var "a" .int32 .none false),
      .mark "a", .mark "x", .define (.var "x" .int32 .none false), .mark "x"]).bindings =
    [.param ⟨"a", .bool, .none⟩, .var "x" .int32 .none true] := by
  decide

end Scope

/-! ### The types of the expressions -/

namespace ExprTypes

/-- With types recorded one after the other. -/
def recordAll (m : ExprTypes) (rs : List (ExprId × Ty)) : ExprTypes :=
  rs.foldl (fun m r => m.record r.1 r.2) m

variable {m : ExprTypes} {rs : List (ExprId × Ty)}

theorem recordAll_append (m : ExprTypes) (rs rs' : List (ExprId × Ty)) :
    m.recordAll (rs ++ rs') = (m.recordAll rs).recordAll rs' :=
  List.foldl_append

theorem recordAll_append_singleton (m : ExprTypes) (rs : List (ExprId × Ty)) (r : ExprId × Ty) :
    m.recordAll (rs ++ [r]) = (m.recordAll rs).record r.1 r.2 :=
  recordAll_append m rs [r]

theorem contains_recordAll (i : ExprId) :
    (m.recordAll rs).contains i = true ↔ m.contains i = true ∨ i ∈ rs.map Prod.fst := by
  induction rs generalizing m with
  | nil => simp [recordAll]
  | cons r rs ih =>
      have hcons : m.recordAll (r :: rs) = (m.record r.1 r.2).recordAll rs := rfl
      rw [hcons, ih, contains_record, Bool.or_eq_true, beq_iff_eq, List.map_cons, List.mem_cons,
        eq_comm (a := i)]
      tauto

theorem contains_recordAll_empty (i : ExprId) :
    (recordAll .empty rs).contains i = true ↔ i ∈ rs.map Prod.fst := by
  rw [contains_recordAll, contains_empty]
  simp

/-- **A number has the type that was recorded for it first.** -/
theorem get_recordAll (rs : List (ExprId × Ty)) (i : ExprId) :
    (recordAll .empty rs).get i = ((rs.find? fun r => r.1 = i).map Prod.snd).getD .error := by
  induction rs using List.reverseRecOn with
  | nil => exact Std.TreeMap.getD_emptyc
  | append_singleton rs r ih =>
      have hnew : (recordAll .empty rs).contains r.1 = false ↔ r.1 ∉ rs.map Prod.fst := by
        rw [← Bool.not_eq_true, contains_recordAll_empty]
      rw [recordAll_append_singleton, get_record, ih, List.find?_append]
      cases hf : rs.find? fun r => r.1 = i with
      | some first =>
          -- The number has a type already.
          have hfirst : first.1 = i := by simpa using List.find?_some hf
          have hi : i ∈ rs.map Prod.fst :=
            List.mem_map.mpr ⟨first, List.mem_of_find?_eq_some hf, hfirst⟩
          have hold : ¬(r.1 = i ∧ (recordAll .empty rs).contains r.1 = false) :=
            fun h => hnew.mp h.2 (h.1 ▸ hi)
          rw [if_neg hold]
          rfl
      | none =>
          have hi : i ∉ rs.map Prod.fst := fun hi => by
            obtain ⟨first, hfirst, rfl⟩ := List.mem_map.mp hi
            exact List.find?_eq_none.mp hf first hfirst (by simp)
          by_cases hr : r.1 = i
          · rw [if_pos ⟨hr, hnew.mpr (hr ▸ hi)⟩]
            simp [hr]
          · rw [if_neg (mt And.left hr)]
            simp [hr]

theorem size_record (m : ExprTypes) (id : ExprId) (type : Ty) :
    (m.record id type).size = if m.contains id then m.size else m.size + 1 := by
  simp only [size, record, contains, Std.TreeMap.size_insertIfNew, Std.TreeMap.contains_iff_mem]

/-- There are as many types as numbers for which one was recorded. -/
theorem size_recordAll_empty (rs : List (ExprId × Ty)) :
    (recordAll .empty rs).size = (rs.map Prod.fst).eraseDups.length := by
  induction rs using List.reverseRecOn with
  | nil => rfl
  | append_singleton rs r ih =>
      rw [recordAll_append_singleton, size_record, List.map_append, List.map_singleton,
        Digraph.eraseDups_append_singleton, ih]
      simp only [contains_recordAll_empty]
      split
      · rfl
      · rw [List.length_append, List.length_singleton]

/-- What holds of the types behind the writes `rs`. -/
structure KeepsFirst (rs : List (ExprId × Ty)) : Prop where
  /-- A number has the type that was recorded for it first, and `error` if none was. -/
  get : ∀ i, (recordAll .empty rs).get i = ((rs.find? fun r => r.1 = i).map Prod.snd).getD .error
  contains : ∀ i, (recordAll .empty rs).contains i = true ↔ i ∈ rs.map Prod.fst
  /-- One more write is answered with `true` if it is the first for its number. -/
  write : ∀ i type, ((recordAll .empty rs).write i type).1 = true ↔ i ∉ rs.map Prod.fst
  written : ∀ i type, ((recordAll .empty rs).write i type).2 = recordAll .empty (rs ++ [(i, type)])
  /-- There are as many types as numbers that were written to. -/
  size : (recordAll .empty rs).size = (rs.map Prod.fst).eraseDups.length

theorem recordAll_keepsFirst (rs : List (ExprId × Ty)) : KeepsFirst rs where
  get := get_recordAll rs
  contains _ := contains_recordAll_empty _
  write i type := by rw [write, ← contains_recordAll_empty, Bool.not_eq_true', Bool.not_eq_true]
  written i type := (recordAll_append_singleton .empty rs (i, type)).symm
  size := size_recordAll_empty rs

end ExprTypes

/-! ### The stores together -/

/-- **The stores keep what was written first.**  Over any number of operations a table holds the
first entry of each name, a scope binds each name to its first definition, and an expression has
the type that was recorded for it first; what is written too late is handed back and changes
nothing. -/
theorem Checking.stores_keepFirst :
    (∀ es, ProcedureTable.KeepsFirst es) ∧ (∀ ops, Scope.KeepsFirst ops) ∧
      ∀ rs, ExprTypes.KeepsFirst rs :=
  ⟨ProcedureTable.registered_keepsFirst, Scope.told_keepsFirst, ExprTypes.recordAll_keepsFirst⟩

end ProcScript
