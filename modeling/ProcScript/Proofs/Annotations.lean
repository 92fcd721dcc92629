import ProcScript.Proofs.Check.Wording
import ProcScript.Proofs.Nesting

/-!
# Annotations

**The types that are validated are those that are written and those that a check reads**
(`Script.validated`).  `Script.Has` finds a type wherever one is written, at any depth; validation
finds the same ones (`Script.has_typeName_iff`), and the first it does not know is the first in the
order parameters, result, body (`Script.annotations`).  In a script that was read from a text this
is the order of the text: each type is a token, and the types of a tree are a sublist of its tokens
(`Piece.Reads.typeNames`).

That a check reads no other type is said by changing the types that are written.  Whatever is put
for those that are not known, a script in which all are known is checked in the same way, so what a
check would take such a type for is of no account.
-/

namespace ProcScript

open String (utf8Len)

/-! ### Where types are written -/

/-- The types that are written in a phrase. -/
def Phrase.typeNames : Phrase → List TypeName
  | .procedure p => p.typeNames
  | .param q     => [q.typeName]
  | .typeName a  => [a]
  | .stmt s      => s.typeNames
  | .expr _      => []

theorem Block.typeNames_eq (ss : List Stmt) : typeNames ss = ss.flatMap Stmt.typeNames := by
  induction ss with
  | nil => rfl
  | cons s ss ih => rw [typeNames, ih, List.flatMap_cons]

theorem Phrase.flatMap_typeNames_expr (es : List Expr) :
    (es.map Phrase.expr).flatMap typeNames = [] := by
  simp [List.flatMap_map, typeNames]

theorem Phrase.flatMap_typeNames_stmt (ss : List Stmt) :
    (ss.map Phrase.stmt).flatMap typeNames = Block.typeNames ss := by
  rw [Block.typeNames_eq, List.flatMap_map]
  rfl

theorem Phrase.flatMap_typeNames_param (qs : List Param) :
    (qs.map Phrase.param).flatMap typeNames = qs.map Param.typeName := by
  rw [List.flatMap_map, ← List.flatMap_singleton' (qs.map Param.typeName), List.flatMap_map]
  rfl

/-- The types that are written in a phrase are those of its children, unless it is one itself. -/
theorem Phrase.typeNames_eq {x : Phrase} (h : ∀ a, x ≠ .typeName a) :
    x.typeNames = x.children.flatMap typeNames := by
  cases x with
  | procedure p =>
      rw [children, List.flatMap_append, List.flatMap_cons, flatMap_typeNames_param,
        flatMap_typeNames_stmt]
      simp [typeNames, Procedure.typeNames]
  | param q => rfl
  | typeName a => exact absurd rfl (h a)
  | expr e => cases e <;> rfl
  | stmt s =>
      cases s with
      | varDef name a init span => cases init <;> rfl
      | ret value span => cases value <;> rfl
      | call callee args span => exact (flatMap_typeNames_expr args).symm
      | assign target value span => rfl
      | ifThen condition body span | whileDo condition body span =>
          exact (flatMap_typeNames_stmt body).symm
      | ifElse condition body other span =>
          rw [children, List.flatMap_cons, List.flatMap_append, flatMap_typeNames_stmt,
            flatMap_typeNames_stmt]
          rfl

theorem Phrase.ne_typeName_of_child {x y : Phrase} (h : y ∈ x.children) (a : TypeName) :
    x ≠ .typeName a := by
  rintro rfl
  cases h

namespace Script

variable {s : Script} {a : TypeName}

theorem Has.typeNames {x : Phrase} (h : s.Has x) : ∀ a ∈ x.typeNames, a ∈ s.typeNames := by
  induction h with
  | procedure hp => exact fun a ha => List.mem_flatMap.mpr ⟨_, hp, ha⟩
  | child hx hy ih =>
      refine fun a ha => ih a ?_
      rw [Phrase.typeNames_eq (Phrase.ne_typeName_of_child hy)]
      exact List.mem_flatMap.mpr ⟨_, hy, ha⟩

mutual

theorem has_of_mem_stmt : ∀ st : Stmt, s.Has (.stmt st) → a ∈ st.typeNames → s.Has (.typeName a)
  | .varDef _ _ _ _, h, ha => by
      obtain rfl := List.mem_singleton.mp ha
      exact .child h List.mem_cons_self
  | .ret .., _, ha | .call .., _, ha | .assign .., _, ha => by cases ha
  | .ifThen _ body _, h, ha | .whileDo _ body _, h, ha =>
      has_of_mem_block body
        (fun _ hst => .child h (List.mem_cons_of_mem _ (List.mem_map_of_mem hst))) ha
  | .ifElse _ body other _, h, ha => by
      rcases List.mem_append.mp ha with ha | ha
      · refine has_of_mem_block body (fun _ hst => .child h (List.mem_cons_of_mem _ ?_)) ha
        exact List.mem_append_left _ (List.mem_map_of_mem hst)
      · refine has_of_mem_block other (fun _ hst => .child h (List.mem_cons_of_mem _ ?_)) ha
        exact List.mem_append_right _ (List.mem_map_of_mem hst)

theorem has_of_mem_block : ∀ ss : List Stmt, (∀ st ∈ ss, s.Has (.stmt st)) →
    a ∈ Block.typeNames ss → s.Has (.typeName a)
  | [], _, ha => by cases ha
  | st :: ss, h, ha => by
      obtain ⟨hst, hss⟩ := List.forall_mem_cons.mp h
      rcases List.mem_append.mp ha with ha | ha
      · exact has_of_mem_stmt st hst ha
      · exact has_of_mem_block ss hss ha

end

/-- What is validated are the types that are written, wherever they are. -/
theorem has_typeName_iff : s.Has (.typeName a) ↔ a ∈ s.typeNames := by
  refine ⟨fun h => h.typeNames a List.mem_cons_self, fun h => ?_⟩
  obtain ⟨p, hp, ha⟩ := List.mem_flatMap.mp h
  have hproc : s.Has (.procedure p) := .procedure hp
  rw [Procedure.typeNames, List.append_assoc, List.mem_append, List.singleton_append,
    List.mem_cons] at ha
  rcases ha with ha | rfl | ha
  · obtain ⟨q, hq, rfl⟩ := List.mem_map.mp ha
    have hparam : s.Has (.param q) :=
      .child hproc (List.mem_append_left _ (List.mem_map_of_mem hq))
    exact .child hparam List.mem_cons_self
  · exact .child hproc (List.mem_append_right _ List.mem_cons_self)
  · refine has_of_mem_block p.body (fun st hst => .child hproc (List.mem_append_right _ ?_)) ha
    exact List.mem_cons_of_mem _ (List.mem_map_of_mem hst)

end Script

/-! ### The order of the text -/

/-- The token as a type. -/
def Token.typeName (t : Token) : TypeName := ⟨t.lexeme, t.span⟩

/-- The types in what is read are tokens, in the order of the tokens. -/
theorem Piece.Reads.typeNames {ps : List Piece} {us : List Token} (h : Reads ps us) :
    ∃ ts : List Token, ts.Sublist us ∧
      (ps.filterMap phrase?).flatMap Phrase.typeNames = ts.map Token.typeName := by
  induction h with
  | nil => exact ⟨[], .slnil, rfl⟩
  | @word t ps us more ih =>
      obtain ⟨ts, hts, heq⟩ := ih
      exact ⟨ts, hts.cons t, heq⟩
  | @skipped stops ps vs us stray more ih =>
      obtain ⟨ts, hts, heq⟩ := ih
      exact ⟨ts, hts.trans (List.sublist_append_right vs us), heq⟩
  | @phrase x ps vs us inner span more ihx ih =>
      obtain ⟨ts, hts, heq⟩ := ih
      rw [phrases_phrase, List.flatMap_cons, heq]
      obtain ⟨ws, hws, hx⟩ : ∃ ws : List Token, ws.Sublist vs ∧
          x.typeNames = ws.map Token.typeName := by
        by_cases hx : ∃ a, x = .typeName a
        · obtain ⟨a, rfl⟩ := hx
          obtain ⟨t, rfl, hword⟩ := inner.of_word
          have hspan : a.span = t.span := span (List.pairwise_singleton _ t)
          refine ⟨[t], .refl [t], ?_⟩
          rw [List.map_singleton, Token.typeName, Token.lexeme_of_word hword, ← hspan]
          rfl
        · obtain ⟨ws, hws, hx'⟩ := ihx
          rw [Phrase.phrases_pieces, ← Phrase.typeNames_eq fun a ha => hx ⟨a, ha⟩] at hx'
          exact ⟨ws, hws, hx'⟩
      exact ⟨ws ++ ts, hws.append hts, by rw [hx, List.map_append]⟩

/-- The one stands in the text in front of the other, each where its span says; and unless an offset
overflows, each is what is written there. -/
def TypeName.Precedes (script : String) (text : List Char) (a b : TypeName) : Prop :=
  ∃ before cs gap ds after, text = before ++ cs ++ gap ++ ds ++ after ∧ cs ≠ [] ∧
    a.span = .stretch script before cs ∧ b.span = .stretch script (before ++ cs ++ gap) ds ∧
    (utf8Len text < 2 ^ 32 → a.name.toList = cs ∧ b.name.toList = ds)

/-- Of two of which the one stands in front of the other it starts at the smaller byte. -/
theorem TypeName.Precedes.lo_lt {script : String} {text : List Char} {a b : TypeName}
    (hlen : utf8Len text < 2 ^ 32) (h : a.Precedes script text b) : a.span.lo < b.span.lo := by
  obtain ⟨before, cs, gap, ds, after, rfl, hne, ha, hb, -⟩ := h
  have hpos := utf8Len_pos hne
  simp only [String.utf8Len_append] at hlen
  rw [ha, hb, Span.lo_stretch (by simp only [String.utf8Len_append]; omega),
    Span.lo_stretch (by simp only [String.utf8Len_append]; omega)]
  simp only [String.utf8Len_append]
  omega

namespace Lexer

/-- An item is made of characters behind what was passed before. -/
theorem Tiled.madeOf_behind {script : String} {before rest : List Char} {is : List Item}
    (h : Tiled script before rest is) : ∀ i ∈ is, ∃ gap cs after, rest = gap ++ cs ++ after ∧
      i.MadeOf script (before ++ gap) cs after := by
  induction h with
  | done => exact List.forall_mem_nil _
  | @trivium before cs rest is h more ih =>
      intro i hi
      obtain ⟨gap, ds, after, rfl, hmade⟩ := ih i hi
      rw [List.append_assoc before] at hmade
      exact ⟨cs ++ gap, ds, after, by simp, hmade⟩
  | @item before cs rest i is hcs h more ih =>
      rw [List.forall_mem_cons]
      refine ⟨⟨[], cs, rest, rfl, by rwa [List.append_nil]⟩, fun j hj => ?_⟩
      obtain ⟨gap, ds, after, rfl, hmade⟩ := ih j hj
      rw [List.append_assoc before] at hmade
      exact ⟨cs ++ gap, ds, after, by simp, hmade⟩

/-- The tokens of a text stand in it in their order. -/
theorem Tiled.precedes {script : String} {before rest : List Char} {is : List Item}
    (h : Tiled script before rest is) : (is.filterMap Item.token?).Pairwise fun t u =>
      t.typeName.Precedes script (before ++ rest) u.typeName := by
  induction h with
  | done => exact .nil
  | trivium h more ih => rwa [← List.append_assoc]
  | @item before cs rest i is hcs h more ih =>
      rw [← List.append_assoc]
      cases i with
      | fault e loc => exact ih
      | token t =>
          refine .cons (fun u hu => ?_) ih
          obtain ⟨gap, ds, after, rfl, hmade⟩ := more.madeOf_behind _ (mem_filterMap_token.mp hu)
          refine ⟨before, cs, gap, ds, after, by simp, hcs, h.2.2, hmade.2.2, fun hlen => ?_⟩
          simp only [String.utf8Len_append] at hlen
          have hfirst := h.lexeme_eq (by rw [String.utf8Len_append]; omega)
          have hsecond := hmade.lexeme_eq (by simp only [String.utf8Len_append]; omega)
          rw [Token.typeName, Token.typeName, hfirst, hsecond, String.toList_ofList,
            String.toList_ofList]
          exact ⟨rfl, rfl⟩

end Lexer

/-- The types of a tree are tokens, in the order of the tokens. -/
theorem Script.typeNames_ofTokens (tokens : List Token) : ∃ ts : List Token,
    ts.Sublist (Reader.ofTokens tokens).rest ∧
      (Script.ofTokens tokens).1.typeNames = ts.map Token.typeName := by
  obtain ⟨ts, hts, heq⟩ := (Script.reads_ofTokens tokens).typeNames
  refine ⟨ts, hts, ?_⟩
  rw [← heq, Script.pieces, Piece.phrases_among, List.flatMap_map]
  rfl

/-- The types of the tree of a text stand in the text in their order. -/
theorem SourceText.precedes_read (s : SourceText) :
    s.read.1.typeNames.Pairwise (TypeName.Precedes s.name s.text.toList) := by
  have htiled : Lexer.Tiled s.name [] s.text.toList (Lexer.items (.ofString s.name s.text)) :=
    Lexer.tiled_items (.ofString s.name s.text) rfl
  obtain ⟨ts, hts, htypes⟩ := Script.typeNames_ofTokens s.scan.1
  rw [s.rest_scan] at hts
  rw [read, htypes, List.pairwise_map]
  exact htiled.precedes.sublist hts

/-! ### Validation -/

namespace Script

/-- The types that are written in the script, procedure by procedure: those of the parameters, that
of the result, and those of the variables along the statements of the body. -/
def annotations (s : Script) : List TypeName :=
  s.procedures.flatMap fun p => p.params.map Param.typeName ++
    p.returns :: (Block.preorder p.body).flatMap Stmt.ownTypeNames

/-- The script with other types in the places of those that are written. -/
def respell (f : TypeName → TypeName) (s : Script) : Script := s.reword ⟨id, f⟩

/-- What validation says of a script, and what it means for a check. -/
structure Validated (s : Script) : Prop where
  /-- It fails exactly if a type is written somewhere that is not known, -/
  fails : (∃ m, s.validate = .error m) ↔ ∃ a, s.Has (.typeName a) ∧ a.ty? = none
  /-- with the first of these, -/
  first : ∀ m, s.validate = .error m ↔ ∃ front a back, s.annotations = front ++ a :: back ∧
    (∀ b ∈ front, b.ty? ≠ none) ∧ a.ty? = none ∧ m = .unknownType a.name a.span
  /-- which is the first in the text, if the script is from one, -/
  inText : ∀ t : SourceText, t.read.1 = s →
    s.annotations.Pairwise (TypeName.Precedes t.name t.text.toList)
  /-- the one at the smallest byte. -/
  smallest : ∀ t : SourceText, t.read.1 = s → t.text.utf8ByteSize < 2 ^ 32 →
    ∀ name loc, s.validate = .error (.unknownType name loc) →
      ∀ a, s.Has (.typeName a) → a.ty? = none →
        name = a.name ∧ loc = a.span ∨ loc.lo < a.span.lo
  /-- A check fails exactly if validation does, and in the same way. -/
  check : ∀ m, s.check = .error m ↔ s.validate = .error m
  /-- Otherwise each type that is written is known, -/
  known : s.validate = .ok () → ∀ a, s.Has (.typeName a) → a.ty? = some a.ty
  /-- and a check goes on without any that is not, whatever it would be taken for. -/
  unread : s.validate = .ok () → ∀ f : TypeName → TypeName,
    (∀ a, a.ty? ≠ none → (f a).ty? = a.ty?) → (s.respell f).checking = s.checking

variable (s : Script)

theorem typeNames_eq_annotations : s.typeNames = s.annotations := by
  have hp (p : Procedure) : p.typeNames = p.params.map Param.typeName ++
      p.returns :: (Block.preorder p.body).flatMap Stmt.ownTypeNames := by
    simp [Procedure.typeNames, Block.typeNames_eq_flatMap]
  exact congrArg (List.flatMap · s.procedures) (funext hp)

theorem validate_eq_error_iff {m : Misuse} : s.validate = .error m ↔
    ∃ a, s.unknownType? = some a ∧ m = .unknownType a.name a.span := by
  rw [validate]
  cases s.unknownType? <;> simp [eq_comm]

theorem validate_eq_ok_iff : s.validate = .ok () ↔ ∀ a ∈ s.typeNames, a.ty? ≠ none := by
  have hnone : s.unknownType? = none ↔ ∀ a ∈ s.typeNames, a.ty? ≠ none := by
    rw [unknownType?, List.find?_eq_none]
    simp
  rw [← hnone, validate]
  cases s.unknownType? <;> simp

theorem checking_respell {f : TypeName → TypeName} (h : ∀ a ∈ s.typeNames, (f a).ty = a.ty) :
    (s.respell f).checking = s.checking := by
  have hchecking := s.checking_reword (w := ⟨id, f⟩) ⟨Function.injective_id, h⟩
  rwa [Checking.rename_id] at hchecking

theorem first_unknown {m : Misuse} : s.validate = .error m ↔
    ∃ (front : List TypeName) (a : TypeName) (back : List TypeName),
      s.annotations = front ++ a :: back ∧ (∀ b ∈ front, b.ty? ≠ none) ∧
      a.ty? = none ∧ m = .unknownType a.name a.span := by
  rw [validate_eq_error_iff, unknownType?, typeNames_eq_annotations]
  constructor
  · rintro ⟨a, hfind, rfl⟩
    obtain ⟨ha, front, back, hlist, hfront⟩ := List.find?_eq_some_iff_append.mp hfind
    exact ⟨front, a, back, hlist, by simpa [Option.isSome_iff_ne_none] using hfront,
      by simpa using ha, rfl⟩
  · rintro ⟨front, a, back, hlist, hfront, ha, rfl⟩
    refine ⟨a, List.find?_eq_some_iff_append.mpr ⟨?_, front, back, hlist, ?_⟩, rfl⟩
    · simp [ha]
    · simpa [Option.isSome_iff_ne_none] using hfront

/-- **The types that are validated are those that are written and those that a check reads.** -/
theorem validated : s.Validated where
  fails := by
    have hfails : (∃ m, s.validate = .error m) ↔ ¬ s.validate = .ok () := by
      cases s.validate <;> simp
    rw [hfails, validate_eq_ok_iff]
    simp [has_typeName_iff]
  first _ := s.first_unknown
  inText t ht := by
    rw [← typeNames_eq_annotations, ← ht]
    exact t.precedes_read
  smallest t ht hlen name loc h b hb hunknown := by
    obtain ⟨front, a, back, hlist, hfront, -, hm⟩ := s.first_unknown.mp h
    obtain ⟨rfl, rfl⟩ := Misuse.unknownType.inj hm
    have horder := t.precedes_read
    rw [ht, typeNames_eq_annotations, hlist] at horder
    rw [has_typeName_iff, typeNames_eq_annotations, hlist, List.mem_append, List.mem_cons] at hb
    rcases hb with hb | rfl | hb
    · exact absurd hunknown (hfront b hb)
    · exact .inl ⟨rfl, rfl⟩
    · have hprecedes := (List.pairwise_cons.mp (List.pairwise_append.mp horder).2.1).1 b hb
      exact .inr (hprecedes.lo_lt (by rwa [String.utf8Len_toList]))
  check m := by
    rw [Script.check]
    cases s.validate <;> simp [bind, Except.bind, pure, Except.pure]
  known h a ha := by
    have hknown := s.validate_eq_ok_iff.mp h a (has_typeName_iff.mp ha)
    rw [TypeName.ty]
    cases hty : a.ty? with
    | none => exact absurd hty hknown
    | some type => rfl
  unread h f hf := by
    refine s.checking_respell fun a ha => ?_
    rw [TypeName.ty, TypeName.ty, hf a (s.validate_eq_ok_iff.mp h a ha)]

/-- The first branch is looked at first, and what a check would find is not asked for. -/
example : Script.check ⟨"", [⟨"f", [], ⟨"Void", .none⟩,
    [.ifElse (.bool true 0 .none) [.varDef "x" ⟨"Long", .none⟩ none .none]
      [.varDef "x" ⟨"Real", .none⟩ none .none] .none, .call "g" [] .none], .none⟩], .none⟩ =
    .error (.unknownType "Long" .none) := rfl

end Script

end ProcScript
