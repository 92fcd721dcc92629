import Mathlib
import ProcScript.Proofs.Lexing.Spelling
import ProcScript.Proofs.Lexing.Tiling

/-!
# Lexing — one text below another

**Lexing restarts at a line feed** (`Token.scan_restarts`): what is below a line feed is read as
if it stood alone, and what is above it as if nothing followed.  An open comment is the one
exception, since it reaches over line feeds.

Two cursors are followed side by side, one of which is `Cursor.Ahead` of the other: at the same
characters of a text that goes on, at a shifted place.  Each reading of the one is then a reading of
the other (`Lexer.alike_read`), as long as what goes on starts with a line feed and no offset
overflows: no token has a line feed in it and no character is looked at behind one.  Followed to the
end of the shorter text (`Lexer.items_ahead`), without a shift this is the run on the text above the
seam, and with nothing that goes on it is the run on the text below.
-/

namespace ProcScript

open String (utf8Len)

/-! ### Later places -/

/-- The place `q` is `p`, so many lines and bytes later. -/
structure Position.Later (lines bytes : Nat) (p q : Position) : Prop where
  line : q.line.toNat = p.line.toNat + lines
  column : q.column = p.column
  offset : q.offset.toNat = p.offset.toNat + bytes

/-- The same stretch, so many lines and bytes later. -/
structure Span.Later (lines bytes : Nat) (s t : Span) : Prop where
  source : t.source = s.source
  start : s.start.Later lines bytes t.start
  stop : s.stop.Later lines bytes t.stop

/-- The same token, so many lines and bytes later. -/
structure Token.Later (lines bytes : Nat) (t u : Token) : Prop where
  kind : u.kind = t.kind
  lexeme : u.lexeme = t.lexeme
  span : t.span.Later lines bytes u.span

/-- The same syntax error, so many lines and bytes later. -/
def Diagnostic.Later (lines bytes : Nat) (d e : Diagnostic) : Prop :=
  ∃ error loc loc', d = .syntaxError error loc ∧ e = .syntaxError error loc' ∧
    Span.Later lines bytes loc loc'

/-! ### Shifts -/

/-- A map of places that goes along with characters. -/
structure Shift where
  place : Position → Position
  next : ∀ p x, place (p.next x) = (place p).next x

namespace Shift

/-- Every place stays. -/
def none : Shift := ⟨id, fun _ _ => rfl⟩

/-- So many lines and bytes later. -/
def later (lines bytes : UInt32) : Shift where
  place p := ⟨p.line + lines, p.column, p.offset + bytes⟩
  next p x := by
    rw [Position.next, Position.next]
    split
    · simp only [Position.mk.injEq, true_and]
      exact ⟨add_right_comm _ _ _, add_right_comm _ _ _⟩
    · simp only [Position.mk.injEq, true_and]
      exact add_right_comm _ _ _

/-- The shift of what stands below a text and a line feed. -/
def under (above : List Char) : Shift :=
  .later (Position.after above).line ((Position.after above).next '\n').offset

theorem foldl_next (m : Shift) (cs : List Char) (p : Position) :
    m.place (cs.foldl Position.next p) = cs.foldl Position.next (m.place p) := by
  induction cs generalizing p with
  | nil => rfl
  | cons x cs ih => rw [List.foldl_cons, List.foldl_cons, ih, m.next]

end Shift

def Span.shift (m : Shift) (s : Span) : Span := ⟨s.source, m.place s.start, m.place s.stop⟩

def Token.shift (m : Shift) (t : Token) : Token := ⟨t.kind, t.lexeme, t.span.shift m⟩

namespace Lexer

def Item.shift (m : Shift) : Item → Item
  | .token t     => .token (t.shift m)
  | .fault e loc => .fault e (loc.shift m)

theorem Item.shift_none (i : Item) : i.shift .none = i := by
  cases i <;> rfl

end Lexer

/-! ### Two cursors -/

/-- The cursor `c'` is at the characters that `c` is at, `tail` follows them, and its place is
shifted.  Up to the end of these characters no offset of the two overflows. -/
structure Cursor.Ahead (m : Shift) (tail : List Char) (c c' : Cursor) : Prop where
  script : c'.script = c.script
  rest : c'.rest = c.rest ++ tail
  pos : c'.pos = m.place c.pos
  reaches : c.Reaches c.rest
  reaches' : c'.Reaches c.rest

namespace Cursor.Ahead

variable {m : Shift} {tail cs : List Char} {c c' d d' : Cursor} {x : Char}

/-- It stays so where both pass the same. -/
theorem passes (h : Ahead m tail c c') (hp : c.Passes d cs) (hp' : c'.Passes d' cs) :
    Ahead m tail d d' where
  script := by rw [hp'.script, hp.script, h.script]
  rest := by
    have hrest := h.rest
    rw [hp.rest, hp'.rest, List.append_assoc] at hrest
    exact List.append_cancel_left hrest
  pos := by rw [hp'.pos, hp.pos, h.pos, m.foldl_next]
  reaches := hp.reaches_rest h.reaches
  reaches' := hp'.reaches (hp.rest ▸ h.reaches')

/-- What both pass is cut out of both texts. -/
theorem sliceFrom_eq (h : Ahead m tail c c') (hp : c.Passes d cs) (hp' : c'.Passes d' cs) :
    d'.sliceFrom c'.pos = d.sliceFrom c.pos := by
  have hreaches' : c'.Reaches (cs ++ d.rest) := hp.rest ▸ h.reaches'
  rw [hp.sliceFrom (hp.reaches_passed h.reaches), hp'.sliceFrom hreaches'.of_append]

theorem head?_iff (h : Ahead m tail c c') (ht : ∀ y ∈ tail.head?, y = '\n') (hx : x ≠ '\n') :
    c'.rest.head? = some x ↔ c.rest.head? = some x := by
  rw [h.rest]
  cases c.rest with
  | nil =>
      rw [List.nil_append]
      exact ⟨fun hhead => absurd (ht x hhead) hx, nofun⟩
  | cons y ys => rfl

/-- Both or neither are at the character `x`. -/
theorem eat? (h : Ahead m tail c c') (ht : ∀ y ∈ tail.head?, y = '\n') (hx : x ≠ '\n') :
    (c.eat? x = none ∧ c'.eat? x = none) ∨
      ∃ d d', c.eat? x = some d ∧ c'.eat? x = some d' ∧ c.Passes d [x] ∧ c'.Passes d' [x] := by
  by_cases hhead : c.rest.head? = some x
  · obtain ⟨xs, hc⟩ := List.head?_eq_some_iff.mp hhead
    obtain ⟨xs', hc'⟩ := List.head?_eq_some_iff.mp ((h.head?_iff ht hx).mpr hhead)
    exact .inr ⟨_, _, eat?_eq_some hc, eat?_eq_some hc', .advance hc, .advance hc'⟩
  · exact .inl ⟨eat?_eq_none hhead, eat?_eq_none (mt (h.head?_iff ht hx).mp hhead)⟩

/-- A run without line feeds ends at the same character. -/
theorem takeWhile_eq {p : Char → Bool} (h : Ahead m tail c c') (ht : ∀ y ∈ tail.head?, y = '\n')
    (hp : p '\n' = false) : c'.rest.takeWhile p = c.rest.takeWhile p := by
  have htail : tail.takeWhile p = [] := by
    cases tail with
    | nil => rfl
    | cons y ys =>
        obtain rfl := ht y rfl
        rw [List.takeWhile_cons_of_neg (by simp [hp])]
  rw [h.rest, List.takeWhile_append]
  split
  · rename_i hall
    rw [htail, List.append_nil]
    exact ((List.takeWhile_prefix p).eq_of_length hall).symm
  · rfl

end Cursor.Ahead

namespace Lexer

variable {m : Shift} {tail cs : List Char} {c c' d d' e : Cursor} {x : Char}

/-- Two readings pass the same characters and read them as the same, at shifted places. -/
def Alike (m : Shift) (c c' : Cursor) (r r' : Option Item × Cursor) : Prop :=
  ∃ cs, c.Passes r.2 cs ∧ c'.Passes r'.2 cs ∧ r'.1 = r.1.map (Item.shift m)

/-! ### One reading -/

section
variable (h : c.Ahead m tail c') (hp : c.Passes d cs) (hp' : c'.Passes d' cs)
include h hp hp'

theorem alike_emit (k : Kind) : Alike m c c' (emit k c d) (emit k c' d') := by
  refine ⟨cs, hp, hp', ?_⟩
  have hd := h.passes hp hp'
  rw [emit, emit, h.sliceFrom_eq hp hp']
  simp only [Cursor.spanFrom, hd.script, hd.pos, h.pos]
  rfl

theorem alike_reject (e : SyntaxError) : Alike m c c' (reject e c d) (reject e c' d') := by
  refine ⟨cs, hp, hp', ?_⟩
  have hd := h.passes hp hp'
  simp only [reject, Cursor.spanFrom, hd.script, hd.pos, h.pos]
  rfl

theorem alike_emitWord : Alike m c c' (emitWord c d) (emitWord c' d') := by
  rw [emitWord, emitWord, h.sliceFrom_eq hp hp']
  exact alike_emit h hp hp' _

variable (ht : ∀ y ∈ tail.head?, y = '\n')
include ht

theorem alike_emitEquals (one two : Kind) :
    Alike m c c' (emitEquals one two c d) (emitEquals one two c' d') := by
  rw [emitEquals, emitEquals]
  rcases (h.passes hp hp').eat? ht (x := '=') (by decide) with ⟨hd, hd'⟩ | ⟨e, e', hd, hd', hq, hq'⟩
  · rw [hd, hd']
    exact alike_emit h hp hp' one
  · rw [hd, hd']
    exact alike_emit h (hp.trans hq) (hp'.trans hq') two

theorem alike_needEquals (error : SyntaxError) (two : Kind) :
    Alike m c c' (needEquals error two c d) (needEquals error two c' d') := by
  rw [needEquals, needEquals]
  rcases (h.passes hp hp').eat? ht (x := '=') (by decide) with ⟨hd, hd'⟩ | ⟨e, e', hd, hd', hq, hq'⟩
  · rw [hd, hd']
    exact alike_reject h hp hp' error
  · rw [hd, hd']
    exact alike_emit h (hp.trans hq) (hp'.trans hq') two

end

theorem closeComment_of_rest {xs : List Char} (hc : c.rest = x :: xs) : closeComment c =
    if x = '*' ∧ c.peekSecond? = some '/' then (true, c.advance.advance)
    else closeComment c.advance := by
  rw [closeComment]
  split
  · simp_all
  · rename_i y ys hc'
    obtain ⟨rfl, -⟩ := List.cons.inj (hc.symm.trans hc')
    rfl

theorem closeComment_of_nil (hc : c.rest = []) : closeComment c = (false, c) := by
  rw [closeComment]
  split
  · rfl
  · simp_all

/-- A comment is closed at the same place, or for neither if nothing goes on. -/
theorem alike_closeComment (h : c.Ahead m tail c') (ht : ∀ y ∈ tail.head?, y = '\n')
    (hclosed : (closeComment c).1 = true ∨ tail = []) :
    (closeComment c').1 = (closeComment c).1 ∧
      ∃ cs, c.Passes (closeComment c).2 cs ∧ c'.Passes (closeComment c').2 cs := by
  fun_induction closeComment c generalizing c' with
  | case1 c hc =>
      obtain rfl : tail = [] := by simpa using hclosed
      have hc' : c'.rest = [] := by rw [h.rest, hc, List.append_nil]
      rw [closeComment_of_nil hc']
      exact ⟨rfl, [], .refl c, .refl c'⟩
  | case2 c x xs hc hx =>
      have hc' : c'.rest = x :: (xs ++ tail) := by rw [h.rest, hc, List.cons_append]
      have hp := Cursor.Passes.advance hc
      have hp' := Cursor.Passes.advance hc'
      have hslash : c.advance.rest.head? = some '/' := by rw [Cursor.advance_rest]; exact hx.2
      have hslash' := ((h.passes hp hp').head?_iff ht (by decide)).mpr hslash
      have hx' : x = '*' ∧ c'.peekSecond? = some '/' := by
        rw [Cursor.advance_rest] at hslash'
        exact ⟨hx.1, hslash'⟩
      rw [closeComment_of_rest hc', if_pos hx']
      obtain ⟨ys, hys⟩ := List.head?_eq_some_iff.mp hslash
      obtain ⟨ys', hys'⟩ := List.head?_eq_some_iff.mp hslash'
      exact ⟨rfl, _, hp.trans (.advance hys), hp'.trans (.advance hys')⟩
  | case3 c x xs hc hx ih =>
      have hc' : c'.rest = x :: (xs ++ tail) := by rw [h.rest, hc, List.cons_append]
      have hp := Cursor.Passes.advance hc
      have hp' := Cursor.Passes.advance hc'
      have hnext := h.passes hp hp'
      have hx' : ¬ (x = '*' ∧ c'.peekSecond? = some '/') := by
        rintro ⟨hstar, hslash⟩
        rw [Cursor.peekSecond?, ← Cursor.advance_rest] at hslash
        have hslash := (hnext.head?_iff ht (by decide)).mp hslash
        rw [Cursor.advance_rest] at hslash
        exact hx ⟨hstar, hslash⟩
      rw [closeComment_of_rest hc', if_neg hx']
      obtain ⟨hsame, cs, hq, hq'⟩ := ih hnext hclosed
      exact ⟨hsame, _, hp.trans hq, hp'.trans hq'⟩

theorem readSlash_block (hs : d.eat? '/' = none) (hb : d.eat? '*' = some e) : readSlash c d =
    if (closeComment e).1 = true then (none, (closeComment e).2)
    else reject .openComment c (closeComment e).2 := by
  simp only [readSlash, hs, hb]
  split
  · rename_i stop hstop
    rw [hstop, if_pos rfl]
  · rename_i stop hstop
    rw [hstop, if_neg Bool.false_ne_true]

theorem alike_readSlash (h : c.Ahead m tail c') (ht : ∀ y ∈ tail.head?, y = '\n')
    (hp : c.Passes d ['/']) (hp' : c'.Passes d' ['/'])
    (hopen : (∀ loc, (readSlash c d).1 ≠ some (.fault .openComment loc)) ∨ tail = []) :
    Alike m c c' (readSlash c d) (readSlash c' d') := by
  have hnext := h.passes hp hp'
  rcases hnext.eat? ht (x := '/') (by decide) with ⟨hs, hs'⟩ | ⟨e, e', hs, hs', hq, hq'⟩
  · rcases hnext.eat? ht (x := '*') (by decide) with ⟨hb, hb'⟩ | ⟨e, e', hb, hb', hq, hq'⟩
    · rw [readSlash, readSlash, hs, hs', hb, hb']
      exact alike_emit h hp hp' .slash
    · rw [readSlash_block hs hb] at hopen ⊢
      rw [readSlash_block hs' hb']
      have hclosed : (closeComment e).1 = true ∨ tail = [] := by
        refine hopen.imp_left fun hopen => ?_
        by_contra hno
        rw [if_neg hno] at hopen
        exact hopen _ rfl
      obtain ⟨hsame, cs, hr, hr'⟩ := alike_closeComment (hnext.passes hq hq') ht hclosed
      have hall := (hp.trans hq).trans hr
      have hall' := (hp'.trans hq').trans hr'
      rw [hsame]
      split
      · exact ⟨_, hall, hall', rfl⟩
      · exact alike_reject h hall hall' .openComment
  · have hline := Cursor.Passes.eatWhile (· ≠ '\n') e
    have hline' := Cursor.Passes.eatWhile (· ≠ '\n') e'
    rw [(hnext.passes hq hq').takeWhile_eq ht (by decide)] at hline'
    rw [readSlash, readSlash, hs, hs']
    exact ⟨_, (hp.trans hq).trans hline, (hp'.trans hq').trans hline', rfl⟩

theorem alike_readSymbol (h : c.Ahead m tail c') (ht : ∀ y ∈ tail.head?, y = '\n')
    (hp : c.Passes d [x]) (hp' : c'.Passes d' [x])
    (hopen : (∀ loc, (readSymbol x c d).1 ≠ some (.fault .openComment loc)) ∨ tail = []) :
    Alike m c c' (readSymbol x c d) (readSymbol x c' d') := by
  unfold readSymbol at hopen ⊢
  split
  case h_8 => exact alike_readSlash h ht hp hp' hopen
  case h_9 | h_10 | h_11 => exact alike_emitEquals h hp hp' ht _ _
  case h_12 | h_13 => exact alike_needEquals h hp hp' ht _ _
  case h_14 => exact alike_reject h hp hp' _
  all_goals exact alike_emit h hp hp' _

/-- **A reading of the one is a reading of the other**, an open comment apart. -/
theorem alike_read (h : c.Ahead m tail c') (ht : ∀ y ∈ tail.head?, y = '\n') (hc : c.rest ≠ [])
    (hopen : (∀ loc, (read c).1 ≠ some (.fault .openComment loc)) ∨ tail = []) :
    Alike m c c' (read c) (read c') := by
  obtain ⟨x, xs, hc⟩ := List.exists_cons_of_ne_nil hc
  have hc' : c'.rest = x :: (xs ++ tail) := by rw [h.rest, hc, List.cons_append]
  have hp := Cursor.Passes.advance hc
  have hp' := Cursor.Passes.advance hc'
  have run (p : Char → Bool) (hfeed : p '\n' = false) :
      c'.advance.Passes (c'.advance.eatWhile p) (c.advance.rest.takeWhile p) := by
    rw [← (h.passes hp hp').takeWhile_eq ht hfeed]
    exact .eatWhile p _
  simp only [read, hc, hc'] at hopen ⊢
  split
  · exact ⟨[x], hp, hp', rfl⟩
  · rename_i hblank
    rw [if_neg hblank] at hopen
    split
    · exact alike_emitWord h (hp.trans (.eatWhile isWordChar _)) (hp'.trans (run _ (by decide)))
    · rename_i hstart
      rw [if_neg hstart] at hopen
      split
      · exact alike_emit h (hp.trans (.eatWhile Char.isDigit _)) (hp'.trans (run _ (by decide))) _
      · rename_i hdigit
        rw [if_neg hdigit] at hopen
        exact alike_readSymbol h ht hp hp' hopen

/-! ### To the end of the shorter text -/

/-- **Up to the end of the shorter text both read the same.** -/
theorem items_ahead (h : c.Ahead m tail c') (ht : ∀ y ∈ tail.head?, y = '\n')
    (hopen : (∀ loc, .fault .openComment loc ∉ items c) ∨ tail = []) :
    ∃ d', c'.Passes d' c.rest ∧ items c' = (items c).map (Item.shift m) ++ items d' := by
  fun_induction items c generalizing c' with
  | case1 c hc =>
      rw [hc]
      exact ⟨c', .refl c', rfl⟩
  | case2 c hc ih =>
      have hread : (∀ loc, (read c).1 ≠ some (.fault .openComment loc)) ∨ tail = [] := by
        refine hopen.imp_left fun hopen loc hloc => hopen loc ?_
        rw [hloc]
        exact List.mem_append_left _ (by simp)
      have hnext : (∀ loc, .fault .openComment loc ∉ items (read c).2) ∨ tail = [] :=
        hopen.imp_left fun hopen loc hloc => hopen loc (List.mem_append_right _ hloc)
      obtain ⟨cs, hp, hp', hitem⟩ := alike_read h ht hc hread
      obtain ⟨d', hd', hitems⟩ := ih (h.passes hp hp') hnext
      have hc' : c'.rest ≠ [] := by
        rw [h.rest]
        exact List.append_ne_nil_of_left_ne_nil hc tail
      refine ⟨d', ?_, ?_⟩
      · rw [hp.rest]
        exact hp'.trans hd'
      · rw [items_of_rest hc', hitem, hitems, List.map_append, List.append_assoc]
        congr 1
        cases (read c).1 <;> rfl

/-! ### The seam -/

theorem place_under (above cs : List Char) :
    (Shift.under above).place (.after cs) = .after (above ++ '\n' :: cs) := by
  have hfirst : (Shift.under above).place .first = (Position.after above).next '\n' := by
    show (⟨1 + _, 1, 0 + _⟩ : Position) = ⟨_ + 1, 1, _⟩
    rw [UInt32.add_comm 1, UInt32.zero_add]
    rfl
  rw [Position.after, Shift.foldl_next, hfirst, Position.after_append, List.foldl_cons]

variable {script : String} {above text front : List Char} {i : Item} {is : List Item}

/-- What stands below a line feed is later by the lines and the bytes above. -/
theorem later_place (h : utf8Len (above ++ '\n' :: cs) + 1 < 2 ^ 32) :
    (Position.after cs).Later (above.count '\n' + 1) (utf8Len above + 1)
      ((Shift.under above).place (.after cs)) := by
  have hfeed : '\n'.utf8Size = 1 := rfl
  have hall := Position.behind_after h
  have hcs : (Position.after cs).Behind cs := by
    refine Position.behind_after ?_
    rw [String.utf8Len_append, String.utf8Len_cons] at h
    omega
  refine ⟨?_, rfl, ?_⟩
  · rw [place_under, hall.line, hcs.line, List.count_append, List.count_cons_self]
    omega
  · rw [place_under, hall.offset, hcs.offset, String.utf8Len_append, String.utf8Len_cons]
    omega

theorem later_stretch (h : utf8Len (above ++ '\n' :: (front ++ cs)) + 1 < 2 ^ 32) :
    (Span.stretch script front cs).Later (above.count '\n' + 1) (utf8Len above + 1)
      ((Span.stretch script front cs).shift (Shift.under above)) := by
  have hfront : utf8Len (above ++ '\n' :: front) + 1 < 2 ^ 32 := by
    have hle : utf8Len (above ++ '\n' :: front) ≤ utf8Len (above ++ '\n' :: (front ++ cs)) :=
      String.utf8Len_le_of_prefix ⟨cs, by simp⟩
    omega
  exact ⟨rfl, later_place hfront, later_place h⟩

/-- Every item below a line feed is later. -/
theorem Tiled.later (h : Tiled script [] text is)
    (hlen : utf8Len (above ++ '\n' :: text) + 1 < 2 ^ 32) (hi : i ∈ is) :
    i.span.Later (above.count '\n' + 1) (utf8Len above + 1) (i.span.shift (Shift.under above)) := by
  obtain ⟨front, cs, back, htext, hmade⟩ := h.madeOf i hi
  rw [List.nil_append] at htext
  rw [hmade.span_eq]
  refine later_stretch (Nat.lt_of_le_of_lt (Nat.add_le_add_right ?_ 1) hlen)
  exact String.utf8Len_le_of_prefix ⟨back, by simp [htext]⟩

theorem toList_seam (a b : String) : (a ++ "\n" ++ b).toList = a.toList ++ '\n' :: b.toList := by
  simp

/-- The items of a text above another come first, and the reading goes on at the seam. -/
theorem items_above {script a b : String} (hlen : a.utf8ByteSize < 2 ^ 32)
    (hopen : ∀ loc, .fault .openComment loc ∉ items (.ofString script a)) :
    ∃ d, (Cursor.ofString script (a ++ "\n" ++ b)).Passes d a.toList ∧
      d.rest = '\n' :: b.toList ∧
      items (.ofString script (a ++ "\n" ++ b)) = items (.ofString script a) ++ items d := by
  have htext := toList_seam a b
  have hreaches : (Cursor.ofString script a).Reaches a.toList := Cursor.reaches_ofString hlen
  have habove : (Cursor.ofString script a).Ahead .none ('\n' :: b.toList)
      (.ofString script (a ++ "\n" ++ b)) := ⟨rfl, htext, rfl, hreaches, rfl, hreaches.bytes⟩
  obtain ⟨d, hd, hitems⟩ := items_ahead habove (by simp) (.inl hopen)
  refine ⟨d, hd, List.append_cancel_left (hd.rest.symm.trans htext), ?_⟩
  rw [hitems]
  congr 1
  exact (List.map_congr_left fun i _ => i.shift_none).trans (List.map_id _)

/-- The items of one text below another. -/
theorem items_seam (script : String) {a b : String}
    (hlen : (a ++ "\n" ++ b).utf8ByteSize < 2 ^ 32)
    (hopen : ∀ loc, .fault .openComment loc ∉ items (.ofString script a)) :
    items (.ofString script (a ++ "\n" ++ b)) =
      items (.ofString script a) ++
        (items (.ofString script b)).map (Item.shift (Shift.under a.toList)) := by
  have hparts : a.utf8ByteSize + 1 + b.utf8ByteSize < 2 ^ 32 := by
    rwa [String.utf8ByteSize_append, String.utf8ByteSize_append] at hlen
  obtain ⟨d, hd, hrest, hitems⟩ := items_above (b := b) (by omega) hopen
  have hfeed := Cursor.Passes.advance hrest
  have hnext : d.advance.rest = b.toList := by rw [Cursor.advance_rest, hrest, List.tail_cons]
  -- Behind the line feed the run is the one on `b`, and nothing goes on behind that.
  have hbelow : (Cursor.ofString script b).Ahead (Shift.under a.toList) [] d.advance := by
    refine ⟨hfeed.script.trans hd.script, ?_, ?_, Cursor.reaches_ofString (by omega), ?_⟩
    · rw [hnext, List.append_nil]
      rfl
    · show d.advance.pos = (Shift.under a.toList).place (.after [])
      rw [place_under, hfeed.pos, hd.pos, Position.after_append]
      rfl
    · show d.advance.Reaches b.toList
      rw [← hnext]
      exact hfeed.reaches_rest (hd.reaches_rest (Cursor.reaches_ofString hlen))
  obtain ⟨e, he, hitems'⟩ := items_ahead hbelow (by simp) (.inr rfl)
  have hend : e.rest = [] := by
    have hrest := he.rest.symm.trans hbelow.rest
    rw [List.append_nil] at hrest
    exact List.append_right_eq_self.mp hrest
  rw [hitems, items_blank hrest (by decide), hitems', items_of_nil hend, List.append_nil]

/-- The end of the whole text is the shifted end of the lower one. -/
theorem stretch_seam (script a b : String) : Span.stretch script (a ++ "\n" ++ b).toList [] =
    (Span.stretch script b.toList []).shift (.under a.toList) := by
  rw [Span.shift, Span.stretch, Span.stretch, List.append_nil, List.append_nil, place_under,
    toList_seam]

theorem later_tokens {lines bytes : Nat}
    (h : ∀ i ∈ is, i.span.Later lines bytes (i.span.shift m)) :
    List.Forall₂ (Token.Later lines bytes) (is.filterMap Item.token?)
      ((is.map (Item.shift m)).filterMap Item.token?) := by
  induction is with
  | nil => exact .nil
  | cons i is ih =>
      obtain ⟨hi, his⟩ := List.forall_mem_cons.mp h
      cases i with
      | token t => exact .cons ⟨rfl, rfl, hi⟩ (ih his)
      | fault e loc => exact ih his

theorem later_problems {lines bytes : Nat}
    (h : ∀ i ∈ is, i.span.Later lines bytes (i.span.shift m)) :
    List.Forall₂ (Diagnostic.Later lines bytes) (is.filterMap Item.problem?)
      ((is.map (Item.shift m)).filterMap Item.problem?) := by
  induction is with
  | nil => exact .nil
  | cons i is ih =>
      obtain ⟨hi, his⟩ := List.forall_mem_cons.mp h
      cases i with
      | token t => exact ih his
      | fault e loc => exact .cons ⟨e, loc, _, rfl, rfl, hi⟩ (ih his)

end Lexer

/-- **Lexing restarts at a line feed.**  Unless a comment stays open, the tokens of a text below
another are those of the upper one without its end and those of the lower one, later by the lines
and bytes that stand above; and so it is with what is reported. -/
theorem Token.scan_restarts (script a b : String)
    (hlen : a.utf8ByteSize + b.utf8ByteSize + 1 < 2 ^ 32 - 1)
    (hopen : ∀ loc, .syntaxError .openComment loc ∉ (Token.scan script a).2) :
    ∃ ts ds, Token.scan script (a ++ "\n" ++ b) =
        ((Token.scan script a).1.dropLast ++ ts, (Token.scan script a).2 ++ ds) ∧
      List.Forall₂ (Token.Later (a.toList.count '\n' + 1) (a.utf8ByteSize + 1))
        (Token.scan script b).1 ts ∧
      List.Forall₂ (Diagnostic.Later (a.toList.count '\n' + 1) (a.utf8ByteSize + 1))
        (Token.scan script b).2 ds := by
  have hclosed : ∀ loc, .fault .openComment loc ∉ Lexer.items (.ofString script a) :=
    fun loc hloc => hopen loc (Lexer.mem_filterMap_problem.mpr ⟨_, loc, hloc, rfl⟩)
  have hfit : utf8Len (a.toList ++ '\n' :: b.toList) + 1 < 2 ^ 32 := by
    have hfeed : '\n'.utf8Size = 1 := rfl
    rw [String.utf8Len_append, String.utf8Len_cons, String.utf8Len_toList, String.utf8Len_toList]
    omega
  have htiled : Lexer.Tiled script [] b.toList (Lexer.items (.ofString script b)) :=
    Lexer.tiled_items (.ofString script b) rfl
  have hlater := fun i => htiled.later (i := i) hfit
  have hend : (Span.stretch script b.toList []).Later _ _ _ :=
    Lexer.later_stretch (by rwa [List.append_nil])
  rw [String.utf8Len_toList] at hlater hend
  have hsize : (a ++ "\n" ++ b).utf8ByteSize < 2 ^ 32 := by
    rw [← String.utf8Len_toList, Lexer.toList_seam]
    omega
  have hitems := Lexer.items_seam script hsize hclosed
  refine ⟨((Lexer.items (.ofString script b)).map (.shift (.under a.toList))).filterMap
      Lexer.Item.token? ++
        [.endOfInput ((Span.stretch script b.toList []).shift (.under a.toList))],
    _, Prod.ext ?_ ?_, ?_, Lexer.later_problems hlater⟩
  · rw [Token.scan_end, Token.scan_end script a, List.dropLast_concat, hitems,
      List.filterMap_append, List.append_assoc, Lexer.stretch_seam]
  · show (Lexer.items _).filterMap _ = (Lexer.items _).filterMap _ ++ _
    rw [hitems, List.filterMap_append]
  · rw [Token.scan_end script b]
    exact List.rel_append (Lexer.later_tokens hlater) (.cons ⟨rfl, rfl, hend⟩ .nil)

/-- A comment with a wider character, a word and a `:`. -/
def Lexer.upper : String := "/* é */ x:"

/-- A `=`, and a comment that is not closed. -/
def Lexer.lower : String := "= y /*"

/-- Across that seam no `:=` is read. -/
theorem Lexer.lower_restarts :
    upper.utf8ByteSize + lower.utf8ByteSize + 1 < 2 ^ 32 - 1 ∧
      (∀ loc, .syntaxError .openComment loc ∉ (Token.scan "a" upper).2) ∧
      ∃ ts ds, Token.scan "a" (upper ++ "\n" ++ lower) =
          ((Token.scan "a" upper).1.dropLast ++ ts, (Token.scan "a" upper).2 ++ ds) ∧
        List.Forall₂ (Token.Later 1 12) (Token.scan "a" lower).1 ts ∧
        List.Forall₂ (Diagnostic.Later 1 12) (Token.scan "a" lower).2 ds := by
  have hlen : upper.utf8ByteSize + lower.utf8ByteSize + 1 < 2 ^ 32 - 1 := by decide
  have hnone : (Token.scan "a" upper).2 = [] := by cbv
  have hopen : ∀ loc, .syntaxError .openComment loc ∉ (Token.scan "a" upper).2 := by simp [hnone]
  exact ⟨hlen, hopen, Token.scan_restarts "a" upper lower hlen hopen⟩

end ProcScript
