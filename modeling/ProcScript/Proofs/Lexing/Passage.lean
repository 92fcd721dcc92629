import ProcScript.Proofs.Lexing.Place

/-!
# Lexing — what a cursor passes

`c.Passes d cs` says that a cursor came from `c` to `d` over the characters `cs`.  Passages are
composed, and one character or the longest run of a kind of character is passed in one.  A cursor
that came from the start of its text is behind what it passed (`Cursor.Placed`).  As long as no
offset overflows on the way (`Cursor.Reaches`), the text between the ends of a passage is what was
passed (`Passes.sliceFrom`).
-/

namespace ProcScript.Cursor

open String (utf8Len)

/-- From `c` to `d` the characters `cs` are passed. -/
structure Passes (c d : Cursor) (cs : List Char) : Prop where
  rest : c.rest = cs ++ d.rest
  passed : d.passed = cs.reverse ++ c.passed
  script : d.script = c.script
  pos : d.pos = cs.foldl Position.next c.pos

variable {c d e : Cursor} {cs ds : List Char} {x : Char} {p : Char → Bool}

theorem Passes.refl (c : Cursor) : c.Passes c [] := ⟨rfl, rfl, rfl, rfl⟩

theorem Passes.trans (h : c.Passes d cs) (h' : d.Passes e ds) : c.Passes e (cs ++ ds) where
  rest := by rw [h.rest, h'.rest, List.append_assoc]
  passed := by rw [h'.passed, h.passed, List.reverse_append, List.append_assoc]
  script := h'.script.trans h.script
  pos := by rw [h'.pos, h.pos, List.foldl_append]

theorem Passes.advance (h : c.rest = x :: cs) : c.Passes c.advance [x] := by
  rw [Cursor.advance]
  split
  · simp_all
  · rename_i x' xs h'
    obtain ⟨rfl, rfl⟩ := List.cons.inj (h'.symm.trans h)
    exact ⟨h', rfl, rfl, rfl⟩

theorem Passes.eatWhile (p : Char → Bool) (c : Cursor) :
    c.Passes (c.eatWhile p) (c.rest.takeWhile p) := by
  fun_induction Cursor.eatWhile p c with
  | case1 c h => simpa [h] using Passes.refl c
  | case2 c x xs h hp ih =>
      have hs := (Passes.advance h).trans ih
      rw [advance_rest, h, List.tail_cons] at hs
      rwa [h, List.takeWhile_cons_of_pos hp]
  | case3 c x xs h hp =>
      rw [h, List.takeWhile_cons_of_neg hp]
      exact .refl c

/-- A passage leaves the text as it is. -/
theorem Passes.text (h : c.Passes d cs) : d.text = c.text := by
  rw [Cursor.text, Cursor.text, h.passed, h.rest, List.reverse_append, List.reverse_reverse,
    List.append_assoc]

theorem eat?_eq_some (h : c.rest = x :: cs) : c.eat? x = some c.advance := by
  simp [eat?, peek?, h]

theorem eat?_eq_none (h : c.rest.head? ≠ some x) : c.eat? x = none := by
  simp [eat?, peek?, h]

/-! ### What is between two places -/

/-- The place is the one behind what was passed. -/
def Placed (c : Cursor) : Prop := c.pos = .after c.passed.reverse

theorem Passes.placed (h : c.Passes d cs) (hc : c.Placed) : d.Placed := by
  rw [Placed, h.pos, hc, h.passed, List.reverse_append, List.reverse_reverse,
    Position.after_append]

/-- No offset overflows up to behind the characters `cs` that come next. -/
structure Reaches (c : Cursor) (cs : List Char) : Prop where
  placed : c.Placed
  bytes : utf8Len (c.passed.reverse ++ cs) < 2 ^ 32

theorem reaches_ofString {script text : String} (h : text.utf8ByteSize < 2 ^ 32) :
    (ofString script text).Reaches (ofString script text).rest := by
  refine ⟨rfl, ?_⟩
  show utf8Len text.toList < 2 ^ 32
  rwa [String.utf8Len_toList]

/-- The offset behind the characters `cs` of a text is what is left of their bytes in a word. -/
theorem Passes.offset_mod {script text : String} (h : (ofString script text).Passes d cs) :
    d.pos.offset.toNat = utf8Len cs % 2 ^ 32 := by
  rw [h.pos]
  exact Position.offset_after_mod cs

theorem Reaches.of_append (h : c.Reaches (cs ++ ds)) : c.Reaches cs := by
  refine ⟨h.placed, Nat.lt_of_le_of_lt (String.utf8Len_le_of_prefix ⟨ds, ?_⟩) h.bytes⟩
  rw [List.append_assoc]

theorem Passes.reaches (h : c.Passes d cs) (hc : c.Reaches (cs ++ ds)) : d.Reaches ds := by
  refine ⟨h.placed hc.placed, ?_⟩
  rw [h.passed, List.reverse_append, List.reverse_reverse, List.append_assoc]
  exact hc.bytes

theorem Passes.reaches_passed (h : c.Passes d cs) (hc : c.Reaches c.rest) : c.Reaches cs :=
  Reaches.of_append (h.rest ▸ hc)

theorem Passes.reaches_rest (h : c.Passes d cs) (hc : c.Reaches c.rest) : d.Reaches d.rest :=
  h.reaches (h.rest ▸ hc)

/-- **The text between the ends of a passage is what was passed.** -/
theorem Passes.sliceFrom (h : c.Passes d cs) (hc : c.Reaches cs) :
    d.sliceFrom c.pos = .ofList cs := by
  have hbytes : utf8Len c.passed.reverse ≤ utf8Len (c.passed.reverse ++ cs) :=
    String.utf8Len_le_of_prefix ⟨cs, rfl⟩
  have hstart : c.pos.offset.toNat = utf8Len c.passed.reverse := by
    rw [hc.placed, Position.offset_after (Nat.lt_of_le_of_lt hbytes hc.bytes)]
  have hstop : d.pos.offset.toNat = utf8Len (c.passed.reverse ++ cs) := by
    rw [h.pos, hc.placed, ← Position.after_append, Position.offset_after hc.bytes]
  rw [Cursor.sliceFrom, hstart, hstop, h.text, Cursor.text, h.rest, ← List.append_assoc,
    Text.slice_eq]

end ProcScript.Cursor
