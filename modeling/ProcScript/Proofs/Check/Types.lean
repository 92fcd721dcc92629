import ProcScript.Proofs.Check.Judgement

/-!
# Check — the types that are recorded

Resolving an expression writes types for some of its own numbers and for no other
(`resolve_grows`), and leaves the rest of the state alone.  If none of these numbers had a
type, and they differ, then the number of the whole expression reads afterwards as the type
that the expression has in its `Env` (`get_resolve`): an operator or a pair of parentheses
reads as `error` because nothing else wrote its number.
-/

namespace ProcScript

theorem Expr.id_mem_ids (e : Expr) : e.id ∈ e.ids := by
  cases e <;> simp [Expr.id, Expr.ids]

namespace ExprTypes

/-- A number without a type reads as `error`. -/
theorem get_eq_error {m : ExprTypes} {i : ExprId} (h : m.contains i = false) : m.get i = .error :=
  Std.TreeMap.getD_eq_fallback_of_contains_eq_false h

/-- `m'` is `m` with types for some of `ids`. -/
structure Grows (ids : List ExprId) (m m' : ExprTypes) : Prop where
  contains : ∀ i, m'.contains i = true → m.contains i = true ∨ i ∈ ids
  get : ∀ i, i ∉ ids → m'.get i = m.get i

namespace Grows

variable {ids ids' : List ExprId} {m m₁ m' : ExprTypes}

theorem refl (m : ExprTypes) : Grows [] m m := ⟨fun _ h => .inl h, fun _ _ => rfl⟩

theorem trans (h : Grows ids m m₁) (h' : Grows ids' m₁ m') : Grows (ids ++ ids') m m' where
  contains i hi := by
    rcases h'.contains i hi with hi | hi
    · exact (h.contains i hi).imp_right (List.mem_append_left _)
    · exact .inr (List.mem_append_right _ hi)
  get i hi := by
    rw [List.mem_append, not_or] at hi
    rw [h'.get i hi.2, h.get i hi.1]

theorem mono (h : Grows ids m m') (hs : ids ⊆ ids') : Grows ids' m m' where
  contains i hi := (h.contains i hi).imp_right (@hs i)
  get i hi := h.get i fun hi' => hi (hs hi')

/-- What had no type and is not written has none. -/
theorem contains_eq_false (h : Grows ids m m') {i : ExprId} (hm : m.contains i = false)
    (hi : i ∉ ids) : m'.contains i = false := by
  by_contra hc
  rcases h.contains i (by simpa using hc) with h' | h'
  · rw [hm] at h'
    cases h'
  · exact hi h'

theorem record (m : ExprTypes) (id : ExprId) (type : Ty) : Grows [id] m (m.record id type) where
  contains i hi := by
    rw [contains_record, Bool.or_eq_true, beq_iff_eq] at hi
    rcases hi with rfl | hi
    · exact .inr List.mem_cons_self
    · exact .inl hi
  get i hi := by
    rw [get_record, if_neg]
    rintro ⟨rfl, -⟩
    exact hi List.mem_cons_self

end Grows

end ExprTypes

namespace Checking

/-! ### What resolving leaves alone -/

/-- Resolving changes the recorded types at most. -/
theorem resolve_eq (c : Checking) (e : Expr) :
    c.resolve e = { c with types := (c.resolve e).types } := by
  induction e generalizing c with
  | var name id span =>
      simp only [resolve]
      cases c.varType? name <;> rfl
  | bool | int => rfl
  | binary op left right id span ihl ihr =>
      simp only [resolve]
      rw [ihr, ihl]
  | unary op operand id span ih => exact ih c
  | paren inner id span ih => exact ih c

theorem resolveAll_eq (c : Checking) (es : List Expr) :
    c.resolveAll es = { c with types := (c.resolveAll es).types } := by
  induction es generalizing c with
  | nil => rfl
  | cons e es ih =>
      show (c.resolve e).resolveAll es = { c with types := ((c.resolve e).resolveAll es).types }
      rw [ih, resolve_eq]

/-! ### What resolving records -/

theorem resolve_grows (c : Checking) (e : Expr) : c.types.Grows e.ids (c.resolve e).types := by
  induction e generalizing c with
  | var name id span =>
      simp only [resolve]
      cases c.varType? name with
      | none => exact (ExprTypes.Grows.refl _).mono (List.nil_subset _)
      | some type => exact ExprTypes.Grows.record _ _ _
  | bool | int => exact ExprTypes.Grows.record _ _ _
  | binary op left right id span ihl ihr =>
      exact ((ihl c).trans (ihr _)).mono (List.subset_append_left _ _)
  | unary op operand id span ih => exact (ih c).mono (List.subset_append_left _ _)
  | paren inner id span ih => exact (ih c).mono (List.subset_append_left _ _)

theorem resolveAll_grows (c : Checking) (es : List Expr) :
    c.types.Grows (es.flatMap Expr.ids) (c.resolveAll es).types := by
  induction es generalizing c with
  | nil => exact ExprTypes.Grows.refl _
  | cons e es ih => exact (c.resolve_grows e).trans (ih _)

/-- **A fresh expression gets the type it has.** -/
theorem get_resolve {c : Checking} {env : Env} (henv : ∀ name, c.varType? name = env.varType? name)
    {e : Expr} (hfresh : ∀ i ∈ e.ids, c.types.contains i = false) (hn : e.ids.Nodup) :
    (c.resolve e).types.get e.id = e.typeIn env := by
  have hid : c.types.contains e.id = false := hfresh _ e.id_mem_ids
  -- Nothing below the expression writes its number.
  have whole : ∀ {below : List ExprId} {m : ExprTypes}, c.types.Grows below m →
      (below ++ [e.id]).Nodup → m.get e.id = .error := fun hg hb =>
    (hg.get _ fun hi => (List.nodup_append'.mp hb).2.2 hi List.mem_cons_self).trans
      (ExprTypes.get_eq_error hid)
  cases e with
  | var name id span =>
      simp only [resolve, Expr.typeIn, ← henv]
      cases c.varType? name with
      | none => exact ExprTypes.get_eq_error hid
      | some type => exact (ExprTypes.get_record ..).trans (if_pos ⟨rfl, hid⟩)
  | bool value id span | int value id span =>
      exact (ExprTypes.get_record ..).trans (if_pos ⟨rfl, hid⟩)
  | binary op left right id span =>
      exact whole ((c.resolve_grows left).trans (resolve_grows _ right)) hn
  | unary op operand id span => exact whole (c.resolve_grows operand) hn
  | paren inner id span => exact whole (c.resolve_grows inner) hn

/-- So do fresh expressions one after the other. -/
theorem get_resolveAll {c : Checking} {env : Env}
    (henv : ∀ name, c.varType? name = env.varType? name) {es : List Expr}
    (hfresh : ∀ i ∈ es.flatMap Expr.ids, c.types.contains i = false)
    (hn : (es.flatMap Expr.ids).Nodup) :
    ∀ e ∈ es, (c.resolveAll es).types.get e.id = e.typeIn env := by
  induction es generalizing c with
  | nil => exact fun e he => absurd he List.not_mem_nil
  | cons e es ih =>
      rw [List.flatMap_cons] at hn hfresh
      obtain ⟨hne, hnes, hd⟩ := List.nodup_append'.mp hn
      have hfe : ∀ i ∈ e.ids, c.types.contains i = false :=
        fun i hi => hfresh i (List.mem_append_left _ hi)
      have hfes : ∀ i ∈ es.flatMap Expr.ids, (c.resolve e).types.contains i = false :=
        fun i hi => (c.resolve_grows e).contains_eq_false (hfresh i (List.mem_append_right _ hi))
          fun hi' => hd hi' hi
      have henv' : ∀ name, (c.resolve e).varType? name = env.varType? name := fun name => by
        rw [resolve_eq]
        exact henv name
      intro a ha
      rcases List.mem_cons.mp ha with rfl | ha
      · -- The expressions behind the first one have other numbers.
        have hkeep : ((c.resolve a).resolveAll es).types.get a.id = (c.resolve a).types.get a.id :=
          (resolveAll_grows _ es).get _ (hd a.id_mem_ids)
        exact hkeep.trans (get_resolve henv hfe hne)
      · exact ih henv' hfes hnes a ha

end Checking

end ProcScript
