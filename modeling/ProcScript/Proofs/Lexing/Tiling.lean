import Mathlib
import ProcScript.Proofs.Lexing.Place
import ProcScript.Proofs.Lexing.Reading

/-!
# Lexing — the whole text

**The lexer accounts for every byte exactly once** (`Token.scan_accounts`).  Readings follow one
another without a gap, so what they pass tiles the text (`Lexer.Tiled`): each tile is a blank, a
comment, a token or a fault, and stands where the one before it ended.  Order and disjointness
of the spans, and what stands between them, are read off the tiling.
-/

namespace ProcScript

open String (utf8Len)

theorem SyntaxError.Faults.ne_nil {e : SyntaxError} {cs after : List Char}
    (h : e.Faults cs after) : cs ≠ [] := by
  rintro rfl
  cases e <;> simp [Faults] at h

namespace Lexer

def Item.span : Item → Span
  | .token t     => t.span
  | .fault _ loc => loc

/-- Blanks and comments, and what follows them. -/
inductive Trivia : List Char → List Char → Prop
  | nil {after : List Char} : Trivia [] after
  | cons {cs gap after : List Char} (h : Trivium cs (gap ++ after)) (more : Trivia gap after) :
      Trivia (cs ++ gap) after

/-- The item is made of the characters `cs` between `before` and `after`; the text of a token is
what is between its offsets. -/
def Item.MadeOf (script : String) (before cs after : List Char) : Item → Prop
  | .token t     => t.kind ≠ .eof ∧
      t.lexeme = Text.slice (before ++ cs ++ after) t.span.lo t.span.hi ∧
      t.span = .stretch script before cs
  | .fault e loc => e.Faults cs after ∧ loc = .stretch script before cs

/-- The characters behind `before` are blanks, comments and the items, one after the other. -/
inductive Tiled (script : String) : List Char → List Char → List Item → Prop
  | done {before : List Char} : Tiled script before [] []
  | trivium {before cs rest : List Char} {is : List Item} (h : Trivium cs rest)
      (more : Tiled script (before ++ cs) rest is) : Tiled script before (cs ++ rest) is
  | item {before cs rest : List Char} {i : Item} {is : List Item} (hcs : cs ≠ [])
      (h : i.MadeOf script before cs rest) (more : Tiled script (before ++ cs) rest is) :
      Tiled script before (cs ++ rest) (i :: is)

/-- **What the readings pass tiles the text.** -/
theorem tiled_items (c : Cursor) (hc : c.Placed) :
    Tiled c.script c.passed.reverse c.rest (items c) := by
  fun_induction items c with
  | case1 c h =>
      rw [h]
      exact .done
  | case2 c h ih =>
      obtain ⟨cs, hp, hr⟩ := passed_read h
      have hplaced := hp.placed hc
      have hpassed : (read c).2.passed.reverse = c.passed.reverse ++ cs := by
        rw [hp.passed, List.reverse_append, List.reverse_reverse]
      have htext : c.passed.reverse ++ cs ++ (read c).2.rest = (read c).2.text := by
        rw [Cursor.text, hpassed]
      have more := ih hplaced
      rw [hp.script, hpassed] at more
      have hspan : (⟨c.script, c.pos, (read c).2.pos⟩ : Span) =
          .stretch c.script c.passed.reverse cs := by
        rw [hc, hplaced, hpassed]
        rfl
      rw [hp.rest]
      generalize (read c).1 = item at hr
      cases hr with
      | trivium h => exact .trivium h more
      | token hk hcs => exact .item hcs ⟨hk, by rw [htext]; rfl, hspan⟩ more
      | fault h => exact .item h.ne_nil ⟨h, hspan⟩ more

variable {script : String} {before rest cs after : List Char} {i : Item} {is : List Item}

theorem Item.MadeOf.span_eq (h : i.MadeOf script before cs after) :
    i.span = .stretch script before cs := by
  cases i with
  | token t => exact h.2.2
  | fault e loc => exact h.2

/-- Where no offset overflows the text of a token is what it is made of. -/
theorem Item.MadeOf.lexeme_eq {t : Token} (h : (Item.token t).MadeOf script before cs after)
    (hlen : utf8Len (before ++ cs) < 2 ^ 32) : t.lexeme = .ofList cs := by
  obtain ⟨-, hlexeme, hspan⟩ := h
  rw [hlexeme, hspan, Span.lo_stretch hlen, Span.hi_stretch hlen, Text.slice_eq]

/-! ### Order -/

/-- The items stand inside what is tiled, and none of them is empty. -/
theorem Tiled.bounds (h : Tiled script before rest is) (hlen : utf8Len (before ++ rest) < 2 ^ 32) :
    ∀ i ∈ is, utf8Len before ≤ i.span.lo ∧ i.span.lo < i.span.hi ∧
      i.span.hi ≤ utf8Len (before ++ rest) := by
  induction h with
  | done => simp
  | @trivium before cs rest is h more ih =>
      rw [← List.append_assoc] at hlen ⊢
      intro i hi
      obtain ⟨hlo, hlt, hhi⟩ := ih hlen i hi
      rw [String.utf8Len_append] at hlo
      exact ⟨by omega, hlt, hhi⟩
  | @item before cs rest i is hcs h more ih =>
      rw [← List.append_assoc] at hlen ⊢
      have hpos := utf8Len_pos hcs
      have hcut : utf8Len (before ++ cs) ≤ utf8Len (before ++ cs ++ rest) :=
        String.utf8Len_le_of_prefix ⟨rest, rfl⟩
      have hspan : utf8Len (before ++ cs) < 2 ^ 32 := Nat.lt_of_le_of_lt hcut hlen
      rw [List.forall_mem_cons]
      constructor
      · rw [h.span_eq, Span.lo_stretch hspan, Span.hi_stretch hspan]
        rw [String.utf8Len_append] at hcut ⊢
        omega
      · intro j hj
        obtain ⟨hlo, hlt, hhi⟩ := ih hlen j hj
        rw [String.utf8Len_append] at hlo
        exact ⟨by omega, hlt, hhi⟩

/-- Where the first item stands. -/
theorem Tiled.head_bounds (h : i.MadeOf script before cs rest)
    (hlen : utf8Len (before ++ (cs ++ rest)) < 2 ^ 32) :
    i.span.lo = utf8Len before ∧ i.span.hi = utf8Len (before ++ cs) := by
  have hspan : utf8Len (before ++ cs) < 2 ^ 32 := by
    refine Nat.lt_of_le_of_lt (String.utf8Len_le_of_prefix ⟨rest, ?_⟩) hlen
    exact List.append_assoc ..
  rw [h.span_eq]
  exact ⟨Span.lo_stretch hspan, Span.hi_stretch hspan⟩

/-- Each item ends before the next one starts. -/
theorem Tiled.pairwise (h : Tiled script before rest is)
    (hlen : utf8Len (before ++ rest) < 2 ^ 32) :
    is.Pairwise fun i j => i.span.hi ≤ j.span.lo := by
  induction h with
  | done => exact .nil
  | trivium h more ih => exact ih (by rwa [List.append_assoc])
  | item hcs h more ih =>
      have hrest := hlen
      rw [← List.append_assoc] at hrest
      refine .cons (fun j hj => ?_) (ih hrest)
      rw [(Tiled.head_bounds h hlen).2]
      exact (more.bounds hrest j hj).1

/-- Each item is made of the characters at its place. -/
theorem Tiled.madeOf (h : Tiled script before rest is) :
    ∀ i ∈ is, ∃ front cs back, before ++ rest = front ++ cs ++ back ∧
      i.MadeOf script front cs back := by
  induction h with
  | done => simp
  | trivium h more ih => rwa [← List.append_assoc]
  | item hcs h more ih =>
      rw [← List.append_assoc, List.forall_mem_cons]
      exact ⟨⟨_, _, _, rfl, h⟩, ih⟩

/-! ### What no item covers -/

/-- What stands between items is blanks and comments. -/
theorem Tiled.trivia {base : List Char} (h : Tiled script base rest is)
    (hlen : utf8Len (base ++ rest) < 2 ^ 32) {before gap after : List Char}
    (htext : base ++ rest = before ++ gap ++ after)
    (hapart : ∀ i ∈ is, i.span.hi ≤ utf8Len before ∨ utf8Len (before ++ gap) ≤ i.span.lo)
    (hleft : before = base ∨ ∃ i ∈ is, i.span.hi = utf8Len before)
    (hright : after = [] ∨ ∃ i ∈ is, i.span.lo = utf8Len (before ++ gap)) :
    Trivia gap after := by
  induction h generalizing before gap with
  | @done base =>
      have hbefore : before = base := by simpa using hleft
      have hgap : gap = [] := by simp_all
      rw [hgap]
      exact .nil
  | @trivium base cs rest is h more ih =>
      rw [← List.append_assoc] at htext hlen
      have hbounds := more.bounds hlen
      rcases hleft with rfl | hleft
      · -- The stretch starts with the tile and goes on behind it.
        have htile : cs ++ rest = gap ++ after := by simpa using htext
        have hle : utf8Len cs ≤ utf8Len gap := by
          rcases hright with rfl | ⟨i, hi, hlo⟩
          · rw [List.append_nil] at htile
            exact String.utf8Len_le_of_prefix ⟨rest, htile⟩
          · have := (hbounds i hi).1
            rw [hlo, String.utf8Len_append, String.utf8Len_append] at this
            omega
        obtain ⟨gap', rfl, rfl⟩ := exists_append_of_utf8Len_le htile hle
        rw [← List.append_assoc] at hapart hright
        refine .cons h (ih hlen (by simp) (fun i hi => ?_) (.inl rfl) hright)
        exact (hapart i hi).imp_left fun hle =>
          Nat.le_trans hle (String.utf8Len_le_of_prefix ⟨cs, rfl⟩)
      · exact ih hlen htext hapart (.inr hleft) hright
  | @item base cs rest i is hcs h more ih =>
      obtain ⟨hlo, hhi⟩ := Tiled.head_bounds h hlen
      rw [← List.append_assoc] at htext hlen
      have hbounds := more.bounds hlen
      have hpos := utf8Len_pos hcs
      obtain ⟨hhead, hapart⟩ := List.forall_mem_cons.mp hapart
      rw [hlo, hhi] at hhead
      simp only [String.utf8Len_append] at hhead hhi
      rcases hleft with rfl | ⟨j, hj, hend⟩
      · have hgap : gap = [] := String.utf8Len_eq_zero.mp (by omega)
        rw [hgap]
        exact .nil
      · have hbehind : utf8Len base + utf8Len cs ≤ utf8Len before := by
          rcases List.mem_cons.mp hj with rfl | hj
          · omega
          · have := hbounds j hj
            rw [String.utf8Len_append] at this
            omega
        have hright : after = [] ∨ ∃ k ∈ is, k.span.lo = utf8Len (before ++ gap) := by
          refine hright.imp_right fun ⟨k, hk, hstart⟩ => ?_
          rcases List.mem_cons.mp hk with rfl | hk
          · rw [String.utf8Len_append] at hstart
            omega
          · exact ⟨k, hk, hstart⟩
        refine ih hlen htext hapart ?_ hright
        rcases List.mem_cons.mp hj with rfl | hj
        · -- The stretch starts where the first item ends.
          left
          rw [List.append_assoc before] at htext
          obtain ⟨es, hbefore, -⟩ := exists_append_of_utf8Len_le htext (by
            rw [String.utf8Len_append]
            exact hbehind)
          have hes : es = [] := by
            rw [hbefore, String.utf8Len_append, String.utf8Len_append] at hend
            exact String.utf8Len_eq_zero.mp (by omega)
          rw [hbefore, hes, List.append_nil]
        · exact .inr ⟨j, hj, hend⟩

/-! ### Tokens and problems apart -/

theorem Item.token?_eq_some_iff {t : Token} : i.token? = some t ↔ i = .token t := by
  cases i <;> simp [token?]

theorem Item.problem?_eq_some_iff {d : Diagnostic} :
    i.problem? = some d ↔ ∃ e loc, i = .fault e loc ∧ d = .syntaxError e loc := by
  cases i with
  | token t => simp [problem?]
  | fault e loc => simp [problem?, eq_comm]

theorem mem_filterMap_token {t : Token} : t ∈ is.filterMap Item.token? ↔ .token t ∈ is := by
  simp [List.mem_filterMap, Item.token?_eq_some_iff]

theorem mem_filterMap_problem {d : Diagnostic} :
    d ∈ is.filterMap Item.problem? ↔ ∃ e loc, .fault e loc ∈ is ∧ d = .syntaxError e loc := by
  simp only [List.mem_filterMap, Item.problem?_eq_some_iff]
  constructor
  · rintro ⟨_, hi, e, loc, rfl, rfl⟩
    exact ⟨e, loc, hi, rfl⟩
  · rintro ⟨e, loc, hi, rfl⟩
    exact ⟨_, hi, e, loc, rfl, rfl⟩

/-- The spans of the tokens and of the problems are those of the items. -/
theorem mem_spans {s : Span} :
    s ∈ (is.filterMap Item.token?).map Token.span ++
        (is.filterMap Item.problem?).map Diagnostic.loc ↔ ∃ i ∈ is, i.span = s := by
  simp only [List.mem_append, List.mem_map, mem_filterMap_token, mem_filterMap_problem]
  constructor
  · rintro (⟨t, ht, rfl⟩ | ⟨d, ⟨e, loc, hi, rfl⟩, rfl⟩)
    · exact ⟨_, ht, rfl⟩
    · exact ⟨_, hi, rfl⟩
  · rintro ⟨i, hi, rfl⟩
    cases i with
    | token t => exact .inl ⟨t, hi, rfl⟩
    | fault e loc => exact .inr ⟨_, ⟨e, loc, hi, rfl⟩, rfl⟩

end Lexer

/-! ### The account -/

/-- The span is that of the characters `cs` behind `before`, by bytes. -/
structure Span.At (script : String) (before cs : List Char) (s : Span) : Prop where
  source : s.source = script
  lo : s.lo = utf8Len before
  hi : s.hi = utf8Len (before ++ cs)

/-- The one ends before the other starts. -/
def Span.Before (s t : Span) : Prop := s.hi ≤ t.lo

namespace Lexer

/-- A stretch of a text that none of the spans covers and that ends on both sides at one of them or
at an end of the text. -/
structure Uncovered (spans : List Span) (before gap after : List Char) : Prop where
  apart : ∀ s ∈ spans, s.hi ≤ utf8Len before ∨ utf8Len (before ++ gap) ≤ s.lo
  left : before = [] ∨ ∃ s ∈ spans, s.hi = utf8Len before
  right : after = [] ∨ ∃ s ∈ spans, s.lo = utf8Len (before ++ gap)

/-- The tokens and the problems account for every byte of the text exactly once. -/
structure Accounts (script : String) (text : List Char) (ts : List Token)
    (ds : List Diagnostic) : Prop where
  kinds : ∀ t ∈ ts, t.kind ≠ .eof
  nonempty : ∀ s ∈ ts.map Token.span ++ ds.map Diagnostic.loc, s.lo < s.hi
  /-- Tokens stand in increasing order, -/
  tokens : (ts.map Token.span).Pairwise Span.Before
  /-- so do problems, -/
  problems : (ds.map Diagnostic.loc).Pairwise Span.Before
  /-- and none of the ones overlaps one of the others. -/
  apart : ∀ t ∈ ts, ∀ d ∈ ds, t.span.Before d.loc ∨ d.loc.Before t.span
  /-- A token is the text at its span. -/
  lexemes : ∀ t ∈ ts, ∃ before after, text = before ++ t.lexeme.toList ++ after ∧
    t.span.At script before t.lexeme.toList
  /-- A problem is at the characters that are at fault. -/
  faults : ∀ d ∈ ds, ∃ e loc before cs after, d = .syntaxError e loc ∧
    text = before ++ cs ++ after ∧ loc.At script before cs ∧ e.Faults cs after
  /-- A comment that is not closed is the last problem. -/
  unclosed : ∀ d ∈ ds.dropLast, ∀ loc, d ≠ .syntaxError .openComment loc
  /-- What is between them is blanks and comments. -/
  trivia : ∀ before gap after, text = before ++ gap ++ after →
    Uncovered (ts.map Token.span ++ ds.map Diagnostic.loc) before gap after → Trivia gap after

variable {script : String} {text : List Char} {is : List Item}

theorem Tiled.accounts (h : Tiled script [] text is) (hlen : utf8Len text < 2 ^ 32) :
    Accounts script text (is.filterMap Item.token?) (is.filterMap Item.problem?) := by
  have hbounds := h.bounds hlen
  have horder := h.pairwise hlen
  have hat (front cs back : List Char) (htext : text = front ++ cs ++ back) :
      (Span.stretch script front cs).At script front cs := by
    have hcut : utf8Len (front ++ cs) < 2 ^ 32 :=
      Nat.lt_of_le_of_lt (String.utf8Len_le_of_prefix ⟨back, htext.symm⟩) hlen
    exact ⟨rfl, Span.lo_stretch hcut, Span.hi_stretch hcut⟩
  have hfaults : ∀ d ∈ is.filterMap Item.problem?, ∃ e loc before cs after,
      d = .syntaxError e loc ∧ text = before ++ cs ++ after ∧ loc.At script before cs ∧
        e.Faults cs after := by
    intro d hd
    obtain ⟨e, loc, hi, rfl⟩ := mem_filterMap_problem.mp hd
    obtain ⟨front, cs, back, htext, hfault, rfl⟩ := h.madeOf _ hi
    exact ⟨e, _, front, cs, back, rfl, htext, hat front cs back htext, hfault⟩
  have hnonempty : ∀ s ∈ (is.filterMap Item.token?).map Token.span ++
      (is.filterMap Item.problem?).map Diagnostic.loc, s.lo < s.hi := by
    intro s hs
    obtain ⟨i, hi, rfl⟩ := mem_spans.mp hs
    exact (hbounds i hi).2.1
  have hproblems : ((is.filterMap Item.problem?).map Diagnostic.loc).Pairwise Span.Before := by
    rw [List.pairwise_map, List.pairwise_filterMap]
    refine horder.imp fun hij d hd d' hd' => ?_
    obtain ⟨e, loc, rfl, rfl⟩ := Item.problem?_eq_some_iff.mp hd
    obtain ⟨e', loc', rfl, rfl⟩ := Item.problem?_eq_some_iff.mp hd'
    exact hij
  refine ⟨?_, hnonempty, ?_, hproblems, ?_, ?_, hfaults, ?_, ?_⟩
  · intro t ht
    obtain ⟨_, _, _, _, hkind, -⟩ := h.madeOf _ (mem_filterMap_token.mp ht)
    exact hkind
  · rw [List.pairwise_map, List.pairwise_filterMap]
    refine horder.imp fun hij t ht t' ht' => ?_
    rw [Item.token?_eq_some_iff.mp ht, Item.token?_eq_some_iff.mp ht'] at hij
    exact hij
  · intro t ht d hd
    obtain ⟨e, loc, hi, rfl⟩ := mem_filterMap_problem.mp hd
    have hpair : is.Pairwise fun i j => i.span.Before j.span ∨ j.span.Before i.span :=
      horder.imp .inl
    have : Std.Symm fun i j : Item => i.span.Before j.span ∨ j.span.Before i.span :=
      ⟨fun _ _ => Or.symm⟩
    exact hpair.forall (mem_filterMap_token.mp ht) hi nofun
  · intro t ht
    obtain ⟨front, cs, back, htext, hmade⟩ := h.madeOf _ (mem_filterMap_token.mp ht)
    have htext : text = front ++ cs ++ back := htext
    have hcut : utf8Len (front ++ cs) < 2 ^ 32 :=
      Nat.lt_of_le_of_lt (String.utf8Len_le_of_prefix ⟨back, htext.symm⟩) hlen
    rw [hmade.lexeme_eq hcut, hmade.2.2, String.toList_ofList]
    exact ⟨front, back, htext, hat front cs back htext⟩
  · rintro d hd loc rfl
    -- The comment ends with the text, and another problem would have to start behind it.
    obtain ⟨e, loc', before, cs, after, heq, htext, hloc, hfault⟩ :=
      hfaults _ (List.dropLast_subset _ hd)
    obtain ⟨rfl, rfl⟩ := Diagnostic.syntaxError.inj heq
    obtain ⟨body, -, rfl, -⟩ := hfault
    have hend : loc.hi = utf8Len text := by rw [hloc.hi, htext, List.append_nil]
    have hne := List.ne_nil_of_mem (List.dropLast_subset _ hd)
    have hbefore := (List.pairwise_map.mp hproblems).rel_dropLast_getLast hd
    have hd' := List.getLast_mem hne
    have hspan := List.mem_append_right ((is.filterMap Item.token?).map Token.span)
      (List.mem_map_of_mem (f := Diagnostic.loc) hd')
    obtain ⟨i, hi, hi'⟩ := mem_spans.mp hspan
    obtain ⟨-, hlt, hle⟩ := hbounds i hi
    rw [hi', List.nil_append] at hle
    rw [hi'] at hlt
    have hstart : loc.hi ≤ ((is.filterMap Item.problem?).getLast hne).loc.lo := hbefore
    omega
  · intro before gap after htext hu
    refine h.trivia hlen htext ?_ ?_ ?_
    · exact fun i hi => hu.apart _ (mem_spans.mpr ⟨i, hi, rfl⟩)
    · refine hu.left.imp_right fun ⟨s, hs, hend⟩ => ?_
      obtain ⟨i, hi, rfl⟩ := mem_spans.mp hs
      exact ⟨i, hi, hend⟩
    · refine hu.right.imp_right fun ⟨s, hs, hstart⟩ => ?_
      obtain ⟨i, hi, rfl⟩ := mem_spans.mp hs
      exact ⟨i, hi, hstart⟩

end Lexer

/-- The end of a text is behind all of its characters. -/
theorem Cursor.finish_ofString (script text : String) :
    (Cursor.ofString script text).finish.pos = .after text.toList ∧
      (Cursor.ofString script text).finish.script = script := by
  have hfinish := Cursor.Passes.eatWhile (fun _ => true) (Cursor.ofString script text)
  have hall : (Cursor.ofString script text).rest.takeWhile (fun _ => true) = text.toList :=
    List.takeWhile_eq_self_iff.mpr fun _ _ => rfl
  refine ⟨?_, hfinish.script⟩
  rw [Cursor.finish, hfinish.pos, hall]
  rfl

/-- The `eof` of a text stands behind all of its characters. -/
theorem Token.scan_end (script text : String) :
    (Token.scan script text).1 =
      (Lexer.items (.ofString script text)).filterMap Lexer.Item.token? ++
        [.endOfInput (.stretch script text.toList [])] := by
  obtain ⟨hpos, hscript⟩ := Cursor.finish_ofString script text
  rw [scan, Cursor.spanFrom, hpos, hscript, Span.stretch, List.append_nil]

/-- The text of a token has fewer bytes than there are offsets, whatever the text has. -/
theorem Token.utf8ByteSize_lexeme_lt {script text : String} :
    ∀ t ∈ (Token.scan script text).1, t.lexeme.utf8ByteSize < 2 ^ 32 := by
  have htiled : Lexer.Tiled script [] text.toList (Lexer.items (.ofString script text)) :=
    Lexer.tiled_items (.ofString script text) rfl
  rw [Token.scan_end, List.forall_mem_append, List.forall_mem_singleton]
  refine ⟨fun t ht => ?_, show "".utf8ByteSize < 2 ^ 32 by decide⟩
  obtain ⟨front, cs, back, -, -, hlexeme, -⟩ := htiled.madeOf _ (Lexer.mem_filterMap_token.mp ht)
  rw [hlexeme]
  exact Nat.lt_of_le_of_lt (Text.utf8ByteSize_slice_le _ _ _) t.span.stop.offset.toNat_lt

theorem Lexer.accounts_items (script text : String) (h : text.utf8ByteSize < 2 ^ 32 - 1) :
    Accounts script text.toList ((items (.ofString script text)).filterMap Item.token?)
      ((items (.ofString script text)).filterMap Item.problem?) := by
  have hlen : utf8Len text.toList < 2 ^ 32 := by
    rw [String.utf8Len_toList]
    omega
  have htiled : Tiled script [] text.toList (items (.ofString script text)) :=
    tiled_items (.ofString script text) rfl
  exact htiled.accounts hlen

/-- **The lexer accounts for every byte exactly once.** -/
theorem Token.scan_accounts (script text : String) (h : text.utf8ByteSize < 2 ^ 32 - 1) :
    ∃ ts ds stop, Token.scan script text = (ts ++ [.endOfInput stop], ds) ∧
      stop.At script text.toList [] ∧ Lexer.Accounts script text.toList ts ds := by
  have hlen : utf8Len (text.toList ++ []) < 2 ^ 32 := by
    rw [List.append_nil, String.utf8Len_toList]
    omega
  exact ⟨_, _, _, Prod.ext (Token.scan_end script text) rfl,
    ⟨rfl, Span.lo_stretch hlen, Span.hi_stretch hlen⟩, Lexer.accounts_items script text h⟩

/-- Two names, a comment with a wider character, a lone `=`, and a comment that is not closed. -/
def Lexer.unclosed : String := "x/* é */= y /*"

/-- Every byte of that text is accounted for. -/
theorem Lexer.unclosed_accounts :
    unclosed.utf8ByteSize < 2 ^ 32 - 1 ∧
      Accounts "a" unclosed.toList
        [⟨.identifier, "x", ⟨"a", ⟨1, 1, 0⟩, ⟨1, 2, 1⟩⟩⟩,
          ⟨.identifier, "y", ⟨"a", ⟨1, 11, 11⟩, ⟨1, 12, 12⟩⟩⟩]
        [.syntaxError .loneEquals ⟨"a", ⟨1, 9, 9⟩, ⟨1, 10, 10⟩⟩,
          .syntaxError .openComment ⟨"a", ⟨1, 13, 13⟩, ⟨1, 15, 15⟩⟩] := by
  have hsize : unclosed.utf8ByteSize < 2 ^ 32 - 1 := by decide
  obtain ⟨ts, ds, stop, hscan, -, haccounts⟩ := Token.scan_accounts "a" unclosed hsize
  refine ⟨hsize, ?_⟩
  have hrun : Token.scan "a" unclosed =
      ([⟨.identifier, "x", ⟨"a", ⟨1, 1, 0⟩, ⟨1, 2, 1⟩⟩⟩,
          ⟨.identifier, "y", ⟨"a", ⟨1, 11, 11⟩, ⟨1, 12, 12⟩⟩⟩] ++
            [.endOfInput ⟨"a", ⟨1, 15, 15⟩, ⟨1, 15, 15⟩⟩],
        [.syntaxError .loneEquals ⟨"a", ⟨1, 9, 9⟩, ⟨1, 10, 10⟩⟩,
          .syntaxError .openComment ⟨"a", ⟨1, 13, 13⟩, ⟨1, 15, 15⟩⟩]) := by
    cbv
  obtain ⟨hts, hds⟩ := Prod.mk.inj (hscan.symm.trans hrun)
  obtain ⟨rfl, -⟩ := List.append_inj' hts rfl
  subst hds
  exact haccounts

end ProcScript
