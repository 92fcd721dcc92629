import Mathlib
import ProcScript.Proofs.Lexing.Passage

/-!
# Lexing — where a cursor is

**Wherever a cursor was moved to, it stands behind exactly the characters that it passed**
(`Cursor.run_tracks`).  What moves it (`Cursor.Op`) passes some of the characters to come, said of
these characters alone, and any number of moves pass what they pass one after the other
(`Cursor.passing`).  The cursor holds the rest of the text (`Cursor.Tracks`), its place counts the
lines, the characters of the last one and the bytes, and none of the three words overflows; so the
offsets of two places are ends of characters, and what is cut out between them is what was passed
there (`Cursor.Cuts`).
-/

namespace ProcScript

open String (utf8Len)

namespace Cursor

/-- What moves a cursor. -/
inductive Op where
  /-- Over the next character, -/
  | advance
  /-- over the next character if it is this one, -/
  | eat (x : Char)
  /-- or over the longest run of characters with a property. -/
  | eatWhile (p : Char → Bool)

/-- The characters that are passed, of those to come. -/
def Op.passing : Op → List Char → List Char
  | advance,    cs => cs.take 1
  | eat x,      cs => if cs.head? = some x then [x] else []
  | eatWhile p, cs => cs.takeWhile p

/-- Behind a move. -/
def move (c : Cursor) : Op → Cursor
  | .advance    => c.advance
  | .eat x      => (c.eat? x).getD c
  | .eatWhile p => c.eatWhile p

/-- Behind any number of moves. -/
def run (c : Cursor) (ops : List Op) : Cursor := ops.foldl move c

/-- The characters that moves pass, one after the other, of those to come. -/
def passing : List Op → List Char → List Char
  | [],        _  => []
  | op :: ops, cs => op.passing cs ++ passing ops (cs.drop (op.passing cs).length)

variable {c d : Cursor} {script text : String} {cs ds : List Char}

/-! ### One move, and any number of them -/

theorem passes_move (c : Cursor) (op : Op) : c.Passes (c.move op) (op.passing c.rest) := by
  cases op with
  | advance =>
      cases hc : c.rest with
      | nil =>
          have hstay : c.move .advance = c := by
            rw [move, Cursor.advance]
            split
            · rfl
            · simp_all
          rw [hstay]
          exact .refl c
      | cons x xs => exact .advance hc
  | eat x =>
      rw [Op.passing, move]
      split
      · rename_i hx
        obtain ⟨xs, hc⟩ := List.head?_eq_some_iff.mp hx
        rw [eat?_eq_some hc]
        exact .advance hc
      · rename_i hx
        rw [eat?_eq_none hx]
        exact .refl c
  | eatWhile p => exact .eatWhile p c

/-- What is to come behind a passage. -/
theorem Passes.drop (h : c.Passes d cs) : c.rest.drop cs.length = d.rest := by
  rw [h.rest, List.drop_left]

/-- **Moves pass what they pass one after the other.** -/
theorem passes_run (c : Cursor) (ops : List Op) : c.Passes (c.run ops) (passing ops c.rest) := by
  induction ops generalizing c with
  | nil => exact .refl c
  | cons op ops ih =>
      have hone := passes_move c op
      rw [passing, hone.drop]
      exact hone.trans (ih (c.move op))

theorem run_append (c : Cursor) (ops ops' : List Op) :
    c.run (ops ++ ops') = (c.run ops).run ops' :=
  List.foldl_append

/-! ### The place of a cursor -/

/-- The cursor is in the text `text` of `script` behind the characters `cs`. -/
structure Tracks (script : String) (text cs : List Char) (c : Cursor) : Prop where
  script : c.script = script
  text : text = cs ++ c.rest
  passed : c.passed.reverse = cs
  pos : c.pos.Behind cs

/-- Behind any moves a cursor is behind what they pass. -/
theorem tracks_run (h : text.utf8ByteSize < 2 ^ 32 - 1) (script : String) (ops : List Op) :
    ((ofString script text).run ops).Tracks script text.toList (passing ops text.toList) := by
  have hp := passes_run (ofString script text) ops
  have htext : text.toList = passing ops text.toList ++ ((ofString script text).run ops).rest :=
    hp.rest
  refine ⟨hp.script, htext, ?_, ?_⟩
  · rw [hp.passed]
    simp [ofString]
  · have hcut : utf8Len (passing ops text.toList) ≤ utf8Len text.toList :=
      String.utf8Len_le_of_prefix ⟨_, htext.symm⟩
    rw [String.utf8Len_toList] at hcut
    rw [hp.pos]
    exact Position.behind_after (by omega)

/-! ### What is cut out of a text -/

/-- Between two places of the text there are the characters `cs`: by the cursor at the second one,
and by the bytes from the one offset to the other, which are both ends of characters. -/
structure Cuts (text : String) (c d : Cursor) (cs : List Char) : Prop where
  slice : d.sliceFrom c.pos = .ofList cs
  start : String.Pos.Raw.IsValid text ⟨c.pos.offset.toNat⟩
  stop : String.Pos.Raw.IsValid text ⟨d.pos.offset.toNat⟩
  bytes : String.Pos.Raw.extract text ⟨c.pos.offset.toNat⟩ ⟨d.pos.offset.toNat⟩ = .ofList cs
  span : d.spanFrom c.pos = ⟨c.script, c.pos, d.pos⟩

/-- An offset behind characters that a text starts with is the end of a character. -/
theorem Tracks.isValid (h : c.Tracks script text.toList cs) :
    String.Pos.Raw.IsValid text ⟨c.pos.offset.toNat⟩ := by
  refine String.Pos.Raw.isValid_iff_exists_append.mpr ⟨.ofList cs, .ofList c.rest, ?_, ?_⟩
  · rw [← String.ofList_append, ← h.text, String.ofList_toList]
  · rw [h.pos.offset, String.rawEndPos_ofList]

/-- Between two places there is what the second one is further than the first. -/
theorem Tracks.cuts (hc : c.Tracks script text.toList cs)
    (hd : d.Tracks script text.toList (cs ++ ds)) : Cuts text c d ds where
  slice := by
    rw [sliceFrom, Cursor.text, hc.pos.offset, hd.pos.offset, hd.passed, Text.slice_eq]
  start := hc.isValid
  stop := hd.isValid
  bytes := by
    have htext : text = .ofList (cs ++ ds ++ d.rest) := by
      rw [← hd.text, String.ofList_toList]
    rw [hc.pos.offset, hd.pos.offset, String.utf8Len_append, htext]
    exact String.extract_of_valid cs ds d.rest
  span := by rw [spanFrom, hc.script, hd.script]

/-- **Wherever a cursor was moved to, it stands behind exactly what it passed**, and what is cut out
of the text between two of its places is what it passed from the one to the other. -/
theorem run_tracks {text : String} (h : text.utf8ByteSize < 2 ^ 32 - 1) (script : String)
    (ops ops' : List Op) :
    ((ofString script text).run ops).Tracks script text.toList (passing ops text.toList) ∧
      Cuts text ((ofString script text).run ops) ((ofString script text).run (ops ++ ops'))
        (passing ops' ((ofString script text).run ops).rest) := by
  have hfirst := tracks_run h script ops
  refine ⟨hfirst, hfirst.cuts ?_⟩
  have hsecond := tracks_run h script (ops ++ ops')
  have hjoin : passing (ops ++ ops') text.toList =
      passing ops text.toList ++ passing ops' ((ofString script text).run ops).rest := by
    have hp := (passes_run (ofString script text) ops).trans (passes_run _ ops')
    rw [← run_append] at hp
    have hrest := hsecond.text.symm.trans hp.rest
    exact List.append_cancel_right hrest
  rwa [hjoin] at hsecond

/-- A line of one wider character, and another behind it. -/
def accented : String := "é\nü="

/-- Over the first line, and then over the line feed and the character behind it. -/
theorem accented_tracks :
    accented.utf8ByteSize < 2 ^ 32 - 1 ∧
      ((ofString "a" accented).run [.eat 'e', .eatWhile (· ≠ '\n')]).Tracks "a" accented.toList
        ['é'] ∧
      Cuts accented ((ofString "a" accented).run [.eat 'e', .eatWhile (· ≠ '\n')])
        ((ofString "a" accented).run [.eat 'e', .eatWhile (· ≠ '\n'), .eat '\n', .advance])
        ['\n', 'ü'] := by
  have hsize : accented.utf8ByteSize < 2 ^ 32 - 1 := by decide
  have hline : passing [.eat 'e', .eatWhile (· ≠ '\n')] accented.toList = ['é'] := by decide
  have hrest : ((ofString "a" accented).run [.eat 'e', .eatWhile (· ≠ '\n')]).rest =
      ['\n', 'ü', '='] := by
    cbv
  have htracks := run_tracks hsize "a" [.eat 'e', .eatWhile (· ≠ '\n')] [.eat '\n', .advance]
  rw [hline, hrest] at htracks
  exact ⟨hsize, htracks⟩

end Cursor

end ProcScript
