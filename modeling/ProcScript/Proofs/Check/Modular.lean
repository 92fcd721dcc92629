import Mathlib.Data.List.Flatten
import Mathlib.Logic.Equiv.Basic
import ProcScript.Proofs.Calls.Order
import ProcScript.Proofs.Check.Findings

/-!
# Check — procedures apart

**Checking is modular** (`Script.foundAt_modular`).  What is found of a procedure hangs on the
procedures before it by two things only: whether one of them has its name, and, for each name
that it calls, the types of the parameters of the first one of that name
(`Procedure.SeesAlike`).  So the body and the result of another procedure have no part in it,
nor has the order of two neighbours that have different names and do not call each other.
-/

namespace ProcScript

namespace Procedure

/-- The types of the parameters, in their order. -/
def paramTypes (p : Procedure) : List Ty := p.params.map fun q => q.typeName.ty

/-- What later procedures see of a procedure. -/
def signature (p : Procedure) : String × List Ty := (p.name, p.paramTypes)

/-- The types of the parameters of the first procedure of the name, if there is one. -/
def typesOf? (earlier : List Procedure) (name : String) : Option (List Ty) :=
  (earlier.find? fun q => q.name = name).map paramTypes

/-- Seen from `p`, the procedures of the two lists are alike: its own name is taken in both or in
none, and what it calls has the same parameters. -/
structure SeesAlike (p : Procedure) (earlier earlier' : List Procedure) : Prop where
  name : p.name ∈ earlier.map Procedure.name ↔ p.name ∈ earlier'.map Procedure.name
  callees : ∀ callee ∈ Block.callees p.body, typesOf? earlier callee = typesOf? earlier' callee

instance (p : Procedure) (earlier earlier' : List Procedure) :
    Decidable (p.SeesAlike earlier earlier') :=
  decidable_of_iff (_ ∧ _) ⟨fun h => ⟨h.1, h.2⟩, fun h => ⟨h.name, h.callees⟩⟩

end Procedure

open Procedure (typesOf?)

variable {p q r : Procedure} {earlier earlier' front back : List Procedure} {name : String}

/-! ### One statement, one procedure -/

/-- A call is held against the types of the parameters, and against nothing else of what is
called. -/
theorem Stmt.problems_call (callee : String) (args : List Expr) (span : Span) (env : Env) :
    (Stmt.call callee args span).problems earlier env =
      if callee ∈ env.names then []
      else
        match typesOf? earlier callee with
        | none       => [.noSuchSymbol callee span]
        | some types =>
            if types.length ≠ args.length then [.argCountMismatch types.length args.length span]
            else (types.zip args).flatMap fun arg => mismatch arg.1 (arg.2.typeIn env) span := by
  rw [Stmt.problems, typesOf?]
  cases earlier.find? fun q => q.name = callee with
  | none => rfl
  | some q =>
      simp only [Option.map_some, Procedure.paramTypes, List.length_map, List.zip_map_left,
        List.flatMap_map, Prod.map_fst, Prod.map_snd, id_eq]

theorem Stmt.problems_congr {s : Stmt} (env : Env)
    (h : ∀ callee ∈ s.callee?, typesOf? earlier callee = typesOf? earlier' callee) :
    s.problems earlier env = s.problems earlier' env := by
  cases s with
  | call callee args span => rw [problems_call, problems_call, h callee rfl]
  | varDef | ret | assign | ifThen | ifElse | whileDo => rfl

/-- **A procedure has the same problems behind procedures that look alike to it.** -/
theorem Procedure.SeesAlike.problems_eq (h : p.SeesAlike earlier earlier') :
    p.problems earlier = p.problems earlier' := by
  have hsites : (p.sites.flatMap fun site => site.2.problems earlier site.1) =
      p.sites.flatMap fun site => site.2.problems earlier' site.1 := by
    refine List.flatMap_congr fun site hsite => Stmt.problems_congr site.1 fun callee hc => ?_
    refine h.callees callee ?_
    have hmet : site.2 ∈ Block.preorder p.body := by
      have hsnd : p.sites.map Prod.snd = Block.preorder p.body := Env.map_snd_sites ..
      rw [← hsnd]
      exact List.mem_map_of_mem hsite
    rw [Block.callees_eq_filterMap]
    exact List.mem_filterMap.mpr ⟨site.2, hmet, hc⟩
  simp only [Procedure.problems, hsites, h.name]

/-! ### Lists that look alike -/

namespace Procedure

theorem typesOf?_eq (earlier : List Procedure) (name : String) : typesOf? earlier name =
    ((earlier.map signature).find? fun e => e.1 = name).map Prod.snd := by
  rw [typesOf?, List.find?_map, Option.map_map]
  rfl

theorem typesOf?_append (earlier earlier' : List Procedure) (name : String) :
    typesOf? (earlier ++ earlier') name = (typesOf? earlier name).or (typesOf? earlier' name) := by
  rw [typesOf?, List.find?_append, typesOf?, typesOf?]
  cases earlier.find? fun q => q.name = name <;> rfl

theorem typesOf?_singleton_of_ne (h : r.name ≠ name) : typesOf? [r] name = none := by
  simp [typesOf?, h]

theorem typesOf?_cons (r : Procedure) (earlier : List Procedure) (name : String) :
    typesOf? (r :: earlier) name =
      if r.name = name then some r.paramTypes else typesOf? earlier name := by
  by_cases h : r.name = name <;> simp [typesOf?, h]

theorem SeesAlike.refl (p : Procedure) (earlier : List Procedure) : p.SeesAlike earlier earlier :=
  ⟨Iff.rfl, fun _ _ => rfl⟩

theorem SeesAlike.symm (h : p.SeesAlike earlier earlier') : p.SeesAlike earlier' earlier :=
  ⟨h.name.symm, fun callee hc => (h.callees callee hc).symm⟩

/-- Procedures of the same signatures look alike to every procedure. -/
theorem SeesAlike.of_signatures (h : earlier.map signature = earlier'.map signature) :
    p.SeesAlike earlier earlier' where
  name := by
    have hnames : earlier.map Procedure.name = earlier'.map Procedure.name := by
      have := congrArg (List.map Prod.fst) h
      rwa [List.map_map, List.map_map] at this
    rw [hnames]
  callees callee _ := by rw [typesOf?_eq, typesOf?_eq, h]

/-- One procedure more, of another name, which is not called, makes no difference. -/
theorem SeesAlike.append_singleton (hn : r.name ≠ p.name) (hc : r.name ∉ Block.callees p.body) :
    p.SeesAlike earlier (earlier ++ [r]) where
  name := by simp [Ne.symm hn]
  callees callee hcallee := by
    have hne : r.name ≠ callee := by
      rintro rfl
      exact hc hcallee
    rw [typesOf?_append, typesOf?_singleton_of_ne hne, Option.or_none]

/-- Two neighbours of different names may change places. -/
theorem SeesAlike.swap (h : q.name ≠ r.name) :
    p.SeesAlike (front ++ q :: r :: back) (front ++ r :: q :: back) where
  name := by
    have hperm : (front ++ q :: r :: back).Perm (front ++ r :: q :: back) :=
      (List.Perm.swap r q back).append_left front
    exact (hperm.map Procedure.name).mem_iff
  callees callee _ := by
    simp only [typesOf?_append, typesOf?_cons]
    by_cases hq : q.name = callee
    · have hr : r.name ≠ callee := fun hr => h (hq.trans hr.symm)
      simp [hq, hr]
    · simp [hq]

theorem problemsAfter_append (earlier ps qs : List Procedure) :
    problemsAfter earlier (ps ++ qs) =
      problemsAfter earlier ps ++ problemsAfter (earlier ++ ps) qs := by
  induction ps generalizing earlier with
  | nil => simp [problemsAfter]
  | cons p ps ih => simp [problemsAfter, ih]

end Procedure

/-! ### One procedure of a script -/

namespace Script

variable {s t : Script}

/-- The script without the procedures from place `i` on. -/
def upTo (s : Script) (i : Nat) : Script := { s with procedures := s.procedures.take i }

/-- What checking the script adds to what was found when it comes to the procedure at place `i`. -/
def foundAt (s : Script) (i : Nat) : List Diagnostic :=
  (s.upTo (i + 1)).checking.found.drop (s.upTo i).checking.found.length

theorem found_upTo_succ (s : Script) (i : Nat) :
    (s.upTo (i + 1)).checking.found = (s.upTo i).checking.found ++ s.foundAt i := by
  have hstep : (s.upTo (i + 1)).checking =
      s.procedures[i]?.toList.foldl Checking.procedure (s.upTo i).checking := by
    rw [checking, checking, ← List.foldl_append]
    exact congrArg (List.foldl Checking.procedure .start) List.take_add_one
  have hadds : Checking.Adds (fun _ => True) (s.upTo i).checking (s.upTo (i + 1)).checking := by
    rw [hstep]
    exact Checking.Adds.foldl (fun p _ => Checking.Adds.procedure fun _ _ => trivial) _
  obtain ⟨ds, hds, -⟩ := hadds
  rw [foundAt, hds, List.drop_left]

/-- What is found of a script is what is found of one procedure after the other. -/
theorem found_eq_flatMap_foundAt (s : Script) :
    s.checking.found = (List.range s.procedures.length).flatMap s.foundAt := by
  have hprefix : ∀ n, (s.upTo n).checking.found = (List.range n).flatMap s.foundAt := by
    intro n
    induction n with
    | zero => rfl
    | succ n ih => rw [found_upTo_succ, ih, List.range_succ, List.flatMap_append,
        List.flatMap_singleton]
  have hwhole : s.upTo s.procedures.length = s := by rw [upTo, List.take_length]
  rw [← hprefix, hwhole]

/-- **What is found of a procedure are its problems behind those before it.** -/
theorem foundAt_eq (h : s.exprIds.Nodup) (i : Nat) :
    s.foundAt i = s.procedures[i]?.toList.flatMap fun p => p.problems (s.procedures.take i) := by
  have hids (n : Nat) : (s.upTo n).exprIds.Nodup :=
    h.sublist ((List.take_sublist n s.procedures).flatMap _)
  have hfound (n : Nat) : (s.upTo n).checking.found =
      Procedure.problemsAfter [] (s.procedures.take n) := checking_found (hids n)
  rw [foundAt, hfound, hfound, List.take_add_one, Procedure.problemsAfter_append, List.drop_left]
  cases s.procedures[i]? with
  | none => rfl
  | some p => simp [Procedure.problemsAfter]

/-- The same procedure at two places, behind procedures that look alike to it. -/
theorem foundAt_congr (hs : s.exprIds.Nodup) (ht : t.exprIds.Nodup) {i j : Nat}
    (hget : s.procedures[i]? = t.procedures[j]?)
    (h : ∀ p ∈ s.procedures[i]?, p.SeesAlike (s.procedures.take i) (t.procedures.take j)) :
    s.foundAt i = t.foundAt j := by
  rw [foundAt_eq hs, foundAt_eq ht, ← hget]
  cases hp : s.procedures[i]? with
  | none => rfl
  | some p => simp [(h p hp).problems_eq]

/-- Another procedure with the same parameters may stand at a place. -/
theorem foundAt_set (hs : s.exprIds.Nodup) (ht : t.exprIds.Nodup) {i j : Nat} {q q' : Procedure}
    (hq : s.procedures[j]? = some q) (h : t.procedures = s.procedures.set j q')
    (hq' : q'.signature = q.signature) (hij : i ≠ j) : s.foundAt i = t.foundAt i := by
  have hsignatures : s.procedures.map Procedure.signature =
      t.procedures.map Procedure.signature := by
    rw [h, List.map_set, hq']
    obtain ⟨hj, rfl⟩ := List.getElem?_eq_some_iff.mp hq
    rw [← List.getElem_map Procedure.signature, List.set_getElem_self]
    simpa using hj
  refine foundAt_congr hs ht (by rw [h, List.getElem?_set_ne hij.symm]) fun p _ => ?_
  exact .of_signatures (by rw [List.map_take, List.map_take, hsignatures])

/-- Two neighbours of different names that do not call each other may change places. -/
theorem foundAt_swap (hs : s.exprIds.Nodup) (ht : t.exprIds.Nodup)
    (hsp : s.procedures = front ++ q :: r :: back) (htp : t.procedures = front ++ r :: q :: back)
    (hne : q.name ≠ r.name) (hqr : r.name ∉ Block.callees q.body)
    (hrq : q.name ∉ Block.callees r.body) (i : Nat) :
    s.foundAt i = t.foundAt (Equiv.swap front.length (front.length + 1) i) := by
  have htake (a b : Procedure) (k : Nat) : (front ++ a :: b :: back).take (front.length + k) =
      front ++ (a :: b :: back).take k := List.take_length_add_append k
  have hget (a b : Procedure) (k : Nat) : (front ++ a :: b :: back)[front.length + k]? =
      (a :: b :: back)[k]? := by
    rw [List.getElem?_append_right (Nat.le_add_right _ _), Nat.add_sub_cancel_left]
  rcases Nat.lt_or_ge i front.length with hi | hi
  · -- Before the two, nothing is changed.
    rw [Equiv.swap_apply_of_ne_of_ne (by omega) (by omega)]
    refine foundAt_congr hs ht ?_ fun p _ => ?_
    · rw [hsp, htp, List.getElem?_append_left hi, List.getElem?_append_left hi]
    · rw [hsp, htp, List.take_append_of_le_length hi.le, List.take_append_of_le_length hi.le]
      exact .refl p _
  · obtain ⟨k, rfl⟩ := Nat.exists_eq_add_of_le hi
    match k with
    | 0 =>
        rw [Nat.add_zero, Equiv.swap_apply_left]
        refine foundAt_congr hs ht ?_ fun p hp => ?_
        · rw [hsp, htp]
          exact (hget q r 0).trans (hget r q 1).symm
        · rw [hsp] at hp
          obtain rfl : q = p := by simpa using (hget q r 0).symm.trans hp
          rw [hsp, htp, htake r q 1, ← Nat.add_zero front.length, htake q r 0, List.take_zero,
            List.append_nil]
          exact .append_singleton hne.symm hqr
    | 1 =>
        rw [Equiv.swap_apply_right]
        refine foundAt_congr hs ht ?_ fun p hp => ?_
        · rw [hsp, htp]
          exact (hget q r 1).trans (hget r q 0).symm
        · rw [hsp] at hp
          obtain rfl : r = p := by simpa using (hget q r 1).symm.trans hp
          rw [hsp, htp, htake q r 1, ← Nat.add_zero front.length, htake r q 0, List.take_zero,
            List.append_nil]
          exact (Procedure.SeesAlike.append_singleton hne hrq).symm
    | k + 2 =>
        -- Behind the two, both have been passed.
        rw [Equiv.swap_apply_of_ne_of_ne (by omega) (by omega)]
        refine foundAt_congr hs ht ?_ fun p _ => ?_
        · rw [hsp, htp]
          exact (hget q r (k + 2)).trans (hget r q (k + 2)).symm
        · rw [hsp, htp, htake, htake]
          exact .swap hne

/-- **Checking is modular.**  What is found of a script is what is found of its procedures, one
after the other.  A procedure that stands in two scripts behind procedures that look alike to it
is found fault with alike; and that is so if the body and the result of another procedure are
replaced, or if two neighbours of different names that do not call each other change places. -/
theorem foundAt_modular (hs : s.exprIds.Nodup) (ht : t.exprIds.Nodup) :
    s.checking.found = (List.range s.procedures.length).flatMap s.foundAt ∧
    t.checking.found = (List.range t.procedures.length).flatMap t.foundAt ∧
    (∀ i j p, s.procedures[i]? = some p → t.procedures[j]? = some p →
      p.SeesAlike (s.procedures.take i) (t.procedures.take j) → s.foundAt i = t.foundAt j) ∧
    (∀ j q body returns, s.procedures[j]? = some q →
      t.procedures = s.procedures.set j { q with body, returns } →
      ∀ i, i ≠ j → s.foundAt i = t.foundAt i) ∧
    (∀ front q r back, s.procedures = front ++ q :: r :: back →
      t.procedures = front ++ r :: q :: back → q.name ≠ r.name →
      r.name ∉ Block.callees q.body → q.name ∉ Block.callees r.body →
      ∀ i, s.foundAt i = t.foundAt (Equiv.swap front.length (front.length + 1) i)) := by
  refine ⟨s.found_eq_flatMap_foundAt, t.found_eq_flatMap_foundAt, ?_, ?_, ?_⟩
  · intro i j p hi hj h
    refine foundAt_congr hs ht (hi.trans hj.symm) fun p' hp' => ?_
    obtain rfl := Option.some.inj (hi.symm.trans hp')
    exact h
  · exact fun j q body returns hq h i hij => foundAt_set hs ht hq h rfl hij
  · exact fun front q r back hsp htp hne hqr hrq => foundAt_swap hs ht hsp htp hne hqr hrq

/-- A procedure that calls `show` with a truth value. -/
def caller : Procedure :=
  ⟨"main", [], ⟨"Void", .none⟩, [.call "show" [.bool true 7 .none] .none], .none⟩

/-- It stands behind a `show` that does nothing. -/
def shortWay : Script :=
  ⟨"", [⟨"show", [⟨"n", ⟨"Int32", .none⟩, .none⟩], ⟨"Void", .none⟩, [], .none⟩, caller], .none⟩

/-- It stands behind another procedure and a `show` that has an error of its own. -/
def longWay : Script :=
  ⟨"", [⟨"log", [], ⟨"Bool", .none⟩, [.ret (some (.bool true 0 .none)) .none], .none⟩,
    ⟨"show", [⟨"k", ⟨"Int32", .none⟩, .none⟩], ⟨"Int32", .none⟩,
      [.ret (some (.var "n" 1 .none)) .none], .none⟩, caller], .none⟩

/-- In both it is found fault with for the same reason. -/
theorem shortWay_longWay : shortWay.exprIds.Nodup ∧ longWay.exprIds.Nodup ∧
    caller.SeesAlike (shortWay.procedures.take 1) (longWay.procedures.take 2) ∧
    longWay.foundAt 1 = [.typeMismatch .int32 .error .none] ∧
    shortWay.foundAt 1 = [.typeMismatch .int32 .bool .none] ∧
    longWay.foundAt 2 = [.typeMismatch .int32 .bool .none] := by
  have hs : shortWay.exprIds.Nodup := by decide
  have ht : longWay.exprIds.Nodup := by decide
  have h : caller.SeesAlike (shortWay.procedures.take 1) (longWay.procedures.take 2) := by decide
  have hfound : shortWay.foundAt 1 = [.typeMismatch .int32 .bool .none] := by decide
  have hsame := (foundAt_modular hs ht).2.2.1 1 2 caller rfl rfl h
  exact ⟨hs, ht, h, by decide, hfound, hsame.symm.trans hfound⟩

end Script

end ProcScript
