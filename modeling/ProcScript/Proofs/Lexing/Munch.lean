import Mathlib
import ProcScript.Proofs.Lexing.Spelling
import ProcScript.Proofs.Lexing.Tiling

/-!
# Lexing — the longest token

**A token is the longest that starts where it does** (`Token.scan_munches`).  `k.Munches s after`
says so of the text `s` with `after` behind it: `s` is a text of a token of kind `k`, no longer
beginning of what is there is a text of any token, and no comment starts there.

The lexer sees to this by one character only.  A text of a token is followed by one with which it
goes on (`Lexer.GoesOn`) wherever it is not the longest (`Lexer.munches_of_not_goesOn`): a word by a
letter, digit or `_`, digits by a digit, and of the symbols those that are the first half of a pair.
-/

namespace ProcScript

open String (utf8Len)

/-- A comment starts here. -/
def Lexer.OpensComment (cs : List Char) : Prop := ['/', '/'] <+: cs ∨ ['/', '*'] <+: cs

/-- The text `s` is one of a token of the kind, and with `after` behind it nothing longer starts
where it does. -/
structure Kind.Munches (k : Kind) (s : String) (after : List Char) : Prop where
  spells : k.Spells s
  longest : ∀ k' s', Kind.Spells k' s' → s'.toList <+: s.toList ++ after → s'.length ≤ s.length
  noComment : ¬ Lexer.OpensComment (s.toList ++ after)

namespace Lexer

variable {c d : Cursor} {k : Kind} {s : String} {x y : Char} {cs after : List Char}

/-! ### How texts of tokens go on -/

/-- The texts of tokens that are neither words nor literals. -/
def operators : List String := (Kind.all.filter (· ∉ Kind.keywords)).filterMap Kind.spelling?

/-- What two symbols make together: a comment, an operator. -/
def pairs : List (List Char) :=
  [['/', '/'], ['/', '*'], [':', '='], ['<', '='], ['>', '='], ['=', '='], ['!', '=']]

/-- Behind the characters `cs` a `y` belongs to the same word, literal or pair. -/
def GoesOn (cs : List Char) (y : Char) : Prop :=
  cs.head?.any isWordStart = true ∧ isWordChar y = true ∨
    cs.head?.any Char.isDigit = true ∧ y.isDigit = true ∨ cs ++ [y] ∈ pairs

/-- A text of a token starts like a word, or like a literal, or is an operator. -/
theorem cases_of_spells (h : k.Spells s) :
    (s.toList.head?.any isWordStart = true ∧ ∀ x ∈ s.toList, isWordChar x = true) ∨
      (s.toList.head?.any Char.isDigit = true ∧ ∀ x ∈ s.toList, x.isDigit = true) ∨
      s ∈ operators := by
  have word (hs : IsWord s) :
      s.toList.head?.any isWordStart = true ∧ ∀ x ∈ s.toList, isWordChar x = true := by
    obtain ⟨x, xs, hx, hstart, hxs⟩ := hs
    simp only [← isWordStart_iff, ← isWordChar_iff] at hstart hxs
    rw [hx, List.forall_mem_cons]
    exact ⟨hstart, isWordChar_of_isWordStart hstart, hxs⟩
  by_cases hid : k = .identifier
  · subst hid
    exact .inl (word h.1)
  · by_cases hint : k = .intLiteral
    · subst hint
      obtain ⟨hne, hall⟩ := h
      have hdigits : ∀ x ∈ s.toList, x.isDigit = true := fun x hx => isDigit_iff.mpr (hall x hx)
      obtain ⟨x, xs, hx⟩ := List.exists_cons_of_ne_nil hne
      refine .inr (.inl ⟨?_, hdigits⟩)
      rw [hx]
      exact hdigits x (by simp [hx])
    · have hs : k.spelling? = some s := by
        rw [Kind.Spells] at h
        · exact h
        · exact hid
        · exact hint
      by_cases hkw : k ∈ Kind.keywords
      · exact .inl (word (isWord_of_keyword hkw hs))
      · refine .inr (.inr (List.mem_filterMap.mpr ⟨k, ?_, hs⟩))
        simpa using ⟨Kind.mem_all k, hkw⟩

theorem ne_nil_of_spells (h : k.Spells s) : s.toList ≠ [] := by
  intro hnil
  rcases cases_of_spells h with ⟨hs, -⟩ | ⟨hs, -⟩ | hs
  · simp [hnil] at hs
  · simp [hnil] at hs
  · have hall : ∀ s ∈ operators, s.toList ≠ [] := by decide
    exact hall s hs hnil

/-- A text of a token that is longer than what it starts with goes on behind that. -/
theorem goesOn_of_spells {ys : List Char} (h : k.Spells s) (hcs : cs ≠ [])
    (hs : s.toList = cs ++ y :: ys) : GoesOn cs y := by
  obtain ⟨x, xs, rfl⟩ := List.exists_cons_of_ne_nil hcs
  rcases cases_of_spells h with ⟨hstart, hall⟩ | ⟨hstart, hall⟩ | hop
  · rw [hs] at hstart hall
    exact .inl ⟨hstart, hall y (by simp)⟩
  · rw [hs] at hstart hall
    exact .inr (.inl ⟨hstart, hall y (by simp)⟩)
  · -- The longest operators have two characters.
    have hshort : ∀ s ∈ operators,
        s.toList.length ≤ 1 ∨ s.toList.length = 2 ∧ s.toList ∈ pairs := by
      decide
    rcases hshort s hop with hone | ⟨htwo, hpair⟩
    · simp [hs] at hone
    · rw [hs] at htwo hpair
      simp only [List.length_append, List.length_cons] at htwo
      obtain rfl : xs = [] := List.length_eq_zero_iff.mp (by omega)
      obtain rfl : ys = [] := List.length_eq_zero_iff.mp (by omega)
      exact .inr (.inr hpair)

/-- Of the texts of tokens only `/` starts like a comment. -/
theorem eq_slash_of_spells (h : k.Spells s) (hs : s.toList.head? = some '/') :
    s.toList = ['/'] := by
  rcases cases_of_spells h with ⟨hstart, -⟩ | ⟨hstart, -⟩ | hop
  · rw [hs] at hstart
    exact absurd hstart (by decide)
  · rw [hs] at hstart
    exact absurd hstart (by decide)
  · have hall : ∀ s ∈ operators, s.toList.head? = some '/' → s.toList = ['/'] := by decide
    exact hall s hop hs

/-- Where a comment starts, a text of a token goes on to its second character. -/
theorem goesOn_of_pair (h : k.Spells s) (hp : ['/', y] <+: s.toList ++ after)
    (hpair : ['/', y] ∈ pairs) : y ∈ after.head? ∧ GoesOn s.toList y := by
  obtain ⟨ds, hds⟩ := hp
  have hhead : s.toList.head? = some '/' := by
    obtain ⟨x, xs, hx⟩ := List.exists_cons_of_ne_nil (ne_nil_of_spells h)
    rw [hx] at hds ⊢
    exact congrArg some (List.cons.inj hds).1.symm
  have hs := eq_slash_of_spells h hhead
  rw [hs] at hds ⊢
  obtain rfl : y :: ds = after := by simpa using hds
  exact ⟨rfl, .inr (.inr hpair)⟩

/-- A longer text of a token is one that goes on. -/
theorem goesOn_of_longer {k' : Kind} {s' : String} (h : k.Spells s) (h' : k'.Spells s')
    (hp : s'.toList <+: s.toList ++ after) (hlt : s.length < s'.length) :
    ∃ y ∈ after.head?, GoesOn s.toList y := by
  rw [← String.length_toList, ← String.length_toList] at hlt
  obtain ⟨ds, hs'⟩ := List.prefix_of_prefix_length_le (List.prefix_append _ _) hp hlt.le
  cases ds with
  | nil => simp [← hs'] at hlt
  | cons y ds =>
      refine ⟨y, ?_, goesOn_of_spells h' (ne_nil_of_spells h) hs'.symm⟩
      obtain ⟨es, hp⟩ := hp
      rw [← hs', List.append_assoc, List.append_cancel_left_eq] at hp
      rw [← hp]
      rfl

/-- **A text of a token is the longest if it does not go on.** -/
theorem munches_of_not_goesOn (h : k.Spells s) (hend : ∀ y ∈ after.head?, ¬ GoesOn s.toList y) :
    k.Munches s after := by
  refine ⟨h, fun k' s' h' hp => ?_, fun hc => ?_⟩
  · by_contra hlt
    obtain ⟨y, hy, hgo⟩ := goesOn_of_longer h h' hp (Nat.lt_of_not_le hlt)
    exact hend y hy hgo
  · rcases hc with hc | hc
    · obtain ⟨hy, hgo⟩ := goesOn_of_pair h hc (by decide)
      exact hend _ hy hgo
    · obtain ⟨hy, hgo⟩ := goesOn_of_pair h hc (by decide)
      exact hend _ hy hgo

/-! ### One reading -/

/-- If a token is read it is the longest. -/
def Munched (r : Option Item × Cursor) : Prop :=
  ∀ t, r.1 = some (.token t) → t.kind.Munches t.lexeme r.2.rest

theorem munched_none (d : Cursor) : Munched (none, d) := by
  intro t ht
  cases ht

theorem munched_reject (e : SyntaxError) (c d : Cursor) : Munched (reject e c d) := by
  intro t ht
  cases ht

/-- A symbol goes on to a pair, or not at all. -/
theorem goesOn_iff_of_isSymbol (hx : IsSymbol x) : GoesOn (x :: cs) y ↔ x :: cs ++ [y] ∈ pairs := by
  simp [GoesOn, hx.2.1, hx.2.2]

/-- No pair starts like a word or a literal. -/
theorem not_mem_pairs (h : isWordStart x = true ∨ x.isDigit = true) : x :: cs ∉ pairs := by
  have hall : ∀ p ∈ pairs, p.head?.any isWordStart = false ∧ p.head?.any Char.isDigit = false := by
    decide
  intro hp
  obtain ⟨hstart, hdigit⟩ := hall _ hp
  rcases h with h | h
  · exact Bool.false_ne_true (hstart.symm.trans h)
  · exact Bool.false_ne_true (hdigit.symm.trans h)

theorem spells_word (h : IsWord s) : ((Kind.keyword? s).getD .identifier).Spells s := by
  cases hk : Kind.keyword? s with
  | none => exact ⟨h, keyword?_eq_none_iff.mp hk⟩
  | some k =>
      obtain ⟨hmem, hs⟩ := Kind.keyword?_eq_some_iff.mp hk
      rw [Option.getD_some, Kind.Spells]
      · exact hs
      · rintro rfl
        exact absurd hmem (by decide)
      · rintro rfl
        exact absurd hmem (by decide)

section
variable (hreach : c.Reaches c.rest)
include hreach

theorem munched_emit (h : c.Passes d cs) (hk : k.Spells (.ofList cs))
    (hend : ∀ y ∈ d.rest.head?, ¬ GoesOn cs y) : Munched (emit k c d) := by
  have hreach := h.reaches_passed hreach
  intro t ht
  rw [← String.toList_ofList (l := cs)] at h hend hreach
  rw [emit_eq h hreach] at ht ⊢
  obtain rfl := Item.token.inj (Option.some.inj ht)
  exact munches_of_not_goesOn hk hend

/-- A symbol that is the first half of no pair. -/
theorem munched_one (h : c.Passes d [x]) (hx : IsSymbol x) (hk : k.Spells (.ofList [x]))
    (hpairs : ∀ p ∈ pairs, p.head? ≠ some x) : Munched (emit k c d) := by
  refine munched_emit hreach h hk fun y _ hy => ?_
  exact hpairs _ ((goesOn_iff_of_isSymbol hx).mp hy) rfl

/-- A pair goes on no further. -/
theorem munched_two (h : c.Passes d [x, '=']) (hx : IsSymbol x) (hk : k.Spells (.ofList [x, '='])) :
    Munched (emit k c d) := by
  refine munched_emit hreach h hk fun y _ hy => ?_
  have htwo : ∀ p ∈ pairs, p.length = 2 := by decide
  exact absurd (htwo _ ((goesOn_iff_of_isSymbol hx).mp hy)) (by simp)

theorem munched_emitEquals {one two : Kind} (h : c.Passes d [x]) (hx : IsSymbol x)
    (hone : one.Spells (.ofList [x])) (htwo : two.Spells (.ofList [x, '=']))
    (hpairs : ∀ p ∈ pairs, p.head? = some x → p = [x, '=']) : Munched (emitEquals one two c d) := by
  rw [emitEquals]
  split
  · rename_i stop hstop
    exact munched_two hreach (h.trans (passes_eat? hstop)) hx htwo
  · rename_i hstop
    refine munched_emit hreach h hone fun y hy hgo => ?_
    have hpair := hpairs _ ((goesOn_iff_of_isSymbol hx).mp hgo) rfl
    obtain rfl : y = '=' := by simpa using hpair
    exact head?_of_eat?_eq_none hstop hy

theorem munched_needEquals {two : Kind} (h : c.Passes d [x]) (hx : IsSymbol x) (e : SyntaxError)
    (htwo : two.Spells (.ofList [x, '='])) : Munched (needEquals e two c d) := by
  rw [needEquals]
  split
  · rename_i stop hstop
    exact munched_two hreach (h.trans (passes_eat? hstop)) hx htwo
  · exact munched_reject _ _ _

theorem munched_readSlash (h : c.Passes d ['/']) : Munched (readSlash c d) := by
  rw [readSlash]
  split
  · exact munched_none _
  · rename_i hslash
    split
    · split
      · exact munched_none _
      · exact munched_reject _ _ _
    · rename_i hstar
      refine munched_emit hreach h rfl fun y hy hgo => ?_
      have hpair := (goesOn_iff_of_isSymbol (by decide)).mp hgo
      -- The pairs of a `/` are the two that start a comment.
      have hcomment : y = '/' ∨ y = '*' := by simpa [pairs] using hpair
      rcases hcomment with rfl | rfl
      · exact head?_of_eat?_eq_none hslash hy
      · exact head?_of_eat?_eq_none hstar hy

theorem munched_readSymbol (h : c.Passes d [x]) : Munched (readSymbol x c d) := by
  unfold readSymbol
  split
  case h_8 => exact munched_readSlash hreach h
  case h_9 | h_10 | h_11 => exact munched_emitEquals hreach h (by decide) rfl rfl (by decide)
  case h_12 | h_13 => exact munched_needEquals hreach h (by decide) _ rfl
  case h_14 => exact munched_reject _ _ _
  all_goals exact munched_one hreach h (by decide) rfl (by decide)

/-- A run of characters of one kind is read to its end. -/
theorem munched_run {p : Char → Bool} (h : c.Passes (d.eatWhile p) cs) (hk : k.Spells (.ofList cs))
    (hend : ∀ y, GoesOn cs y → p y = true) : Munched (emit k c (d.eatWhile p)) := by
  refine munched_emit hreach h hk fun y hy hgo => ?_
  rw [Cursor.rest_eatWhile] at hy
  have hstop := List.head?_dropWhile_not p d.rest
  rw [Option.mem_def.mp hy] at hstop
  exact absurd (hend y hgo) (by simpa using hstop)

theorem munched_word (h : isWordStart x = true) (hc : c.rest = x :: cs) :
    Munched (emitWord c (c.advance.eatWhile isWordChar)) := by
  have hp := (Cursor.Passes.advance hc).trans (.eatWhile isWordChar c.advance)
  have hword : IsWord (.ofList ([x] ++ c.advance.rest.takeWhile isWordChar)) := by
    rw [isWord_iff, String.toList_ofList]
    exact ⟨h, List.all_takeWhile⟩
  rw [emitWord, hp.sliceFrom (hp.reaches_passed hreach)]
  refine munched_run hreach hp (spells_word hword) fun y hgo => ?_
  rcases hgo with ⟨-, hy⟩ | ⟨-, hy⟩ | hpair
  · exact hy
  · exact isWordChar_of_isDigit hy
  · exact absurd hpair (not_mem_pairs (.inl h))

theorem munched_digits (h : x.isDigit = true) (hc : c.rest = x :: cs) :
    Munched (emit .intLiteral c (c.advance.eatWhile Char.isDigit)) := by
  have hp := (Cursor.Passes.advance hc).trans (.eatWhile Char.isDigit c.advance)
  have hdigits : Kind.intLiteral.Spells
      (.ofList ([x] ++ c.advance.rest.takeWhile Char.isDigit)) := by
    rw [Kind.Spells, isNumeral_iff, String.toList_ofList, List.singleton_append, List.all_cons, h]
    exact ⟨rfl, List.all_takeWhile⟩
  refine munched_run hreach hp hdigits fun y hgo => ?_
  rcases hgo with ⟨hstart, -⟩ | ⟨-, hy⟩ | hpair
  · exact absurd hstart (Bool.eq_false_iff.mp (isWordStart_eq_false_of_isDigit h))
  · exact hy
  · exact absurd hpair (not_mem_pairs (.inr h))

/-- **If a reading reads a token it is the longest that starts there.** -/
theorem munched_read : Munched (read c) := by
  rw [read]
  split
  · exact munched_none _
  · rename_i x cs hc
    split
    · exact munched_none _
    · split
      · exact munched_word hreach ‹_› hc
      · split
        · exact munched_digits hreach ‹_› hc
        · exact munched_readSymbol hreach (.advance hc)

end

/-! ### The whole text -/

/-- Each token of a text is the longest at its place. -/
theorem munches_items (c : Cursor) (hreach : c.Reaches c.rest) {t : Token}
    (ht : .token t ∈ items c) :
    ∃ front after, c.text = front ++ t.lexeme.toList ++ after ∧
      t.span = .stretch c.script front t.lexeme.toList ∧ t.kind.Munches t.lexeme after := by
  fun_induction items c with
  | case1 c h => cases ht
  | case2 c h ih =>
      obtain ⟨cs, hp, hr⟩ := passed_read h
      rcases List.mem_append.mp ht with ht | ht
      · -- The token of this reading.
        have hread : (read c).1 = some (.token t) := by simpa using ht
        have hmunches := munched_read hreach _ hread
        rw [hread] at hr
        cases hr
        have hplaced := hp.placed hreach.placed
        rw [hp.sliceFrom (hp.reaches_passed hreach)] at hmunches ⊢
        refine ⟨c.passed.reverse, (read c).2.rest, ?_, ?_, hmunches⟩
        · rw [String.toList_ofList, Cursor.text, hp.rest, List.append_assoc]
        · rw [String.toList_ofList, Span.stretch, hreach.placed, hplaced, hp.passed,
            List.reverse_append, List.reverse_reverse]
      · rw [← hp.text, ← hp.script]
        exact ih (hp.reaches_rest hreach) ht

end Lexer

/-- **The lexer takes the longest token at every place of a text**, and none where a comment
starts. -/
theorem Token.scan_munches (script text : String) (hlen : text.utf8ByteSize < 2 ^ 32) :
    ∀ t ∈ (Token.scan script text).1, t.kind ≠ .eof →
      ∃ before after, text.toList = before ++ t.lexeme.toList ++ after ∧
        t.span = .stretch script before t.lexeme.toList ∧
        t.span.lo = utf8Len before ∧ t.kind.Munches t.lexeme after := by
  intro t ht hkind
  rcases List.mem_append.mp ht with ht | ht
  · obtain ⟨before, after, htext, hspan, hmunches⟩ :=
      Lexer.munches_items (.ofString script text) (Cursor.reaches_ofString hlen)
        (Lexer.mem_filterMap_token.mp ht)
    have htext : text.toList = before ++ t.lexeme.toList ++ after := htext
    refine ⟨before, after, htext, hspan, ?_, hmunches⟩
    have hcut : utf8Len (before ++ t.lexeme.toList) ≤ utf8Len text.toList :=
      String.utf8Len_le_of_prefix ⟨after, htext.symm⟩
    rw [String.utf8Len_toList] at hcut
    rw [hspan, Span.lo_stretch (Nat.lt_of_le_of_lt hcut hlen)]
  · rw [List.mem_singleton.mp ht] at hkind
    exact absurd rfl hkind

/-- Words that start with keywords, pairs and their halves, and a comment, without a blank. -/
def Lexer.adjacent : String := "ends:=is_ok<=1/x//"

/-- Of that text `is_ok` is one token. -/
theorem Lexer.adjacent_munches :
    adjacent.utf8ByteSize < 2 ^ 32 ∧
      (⟨.identifier, "is_ok", ⟨"a", ⟨1, 7, 6⟩, ⟨1, 12, 11⟩⟩⟩ : Token) ∈
        (Token.scan "a" adjacent).1 ∧
      ∃ before after, adjacent.toList = before ++ "is_ok".toList ++ after ∧
        (⟨"a", ⟨1, 7, 6⟩, ⟨1, 12, 11⟩⟩ : Span) = .stretch "a" before "is_ok".toList ∧
        6 = utf8Len before ∧ Kind.identifier.Munches "is_ok" after := by
  have hthird : (Token.scan "a" adjacent).1[2]? =
      some ⟨.identifier, "is_ok", ⟨"a", ⟨1, 7, 6⟩, ⟨1, 12, 11⟩⟩⟩ := by
    cbv
  have hmem := List.mem_of_getElem? hthird
  have hlen : adjacent.utf8ByteSize < 2 ^ 32 := by decide
  exact ⟨hlen, hmem, Token.scan_munches "a" adjacent hlen _ hmem (by decide)⟩

/-- Zeros, `n` of them. -/
def Lexer.zeros (n : Nat) : String := .ofList (.replicate n '0')

theorem Lexer.toList_zeros (n : Nat) : (zeros n).toList = .replicate n '0' := String.toList_ofList

theorem Lexer.utf8ByteSize_zeros (n : Nat) : (zeros n).utf8ByteSize = n := by
  have hsize : '0'.utf8Size = 1 := rfl
  rw [← String.utf8Len_toList, toList_zeros, utf8Len_replicate, hsize, Nat.mul_one]

/-- They are a text of a literal. -/
theorem Lexer.spells_zeros {n : Nat} (hn : n ≠ 0) : Kind.intLiteral.Spells (zeros n) := by
  rw [Kind.Spells, IsNumeral, toList_zeros]
  refine ⟨by simpa using hn, fun x hx => ?_⟩
  rw [List.eq_of_mem_replicate hx]
  exact isDigit_iff.mp rfl

/-- Where the offset behind a literal is that of its start, the literal has no text. -/
theorem Token.exists_empty_zeros {n : Nat} (hn : n ≠ 0) (hwrap : n % 2 ^ 32 = 0) (script : String) :
    ∃ t ∈ (Token.scan script (Lexer.zeros n)).1, t.kind = .intLiteral ∧ t.lexeme = "" := by
  obtain ⟨hne, hdigits⟩ := Lexer.spells_zeros hn
  have hrest : (Cursor.ofString script (Lexer.zeros n)).rest = (Lexer.zeros n).toList ++ [] :=
    (List.append_nil _).symm
  obtain ⟨d, hp, hr⟩ := Lexer.read_digits hne (fun x hx => Lexer.isDigit_iff.mpr (hdigits x hx))
    hrest (by simp [Lexer.Gap])
  have hstop : d.pos.offset.toNat = 0 := by
    rw [hp.offset_mod, String.utf8Len_toList, Lexer.utf8ByteSize_zeros, hwrap]
  refine ⟨⟨.intLiteral, d.sliceFrom .first, d.spanFrom .first⟩, ?_, rfl, ?_⟩
  · refine List.mem_append_left _ (Lexer.mem_filterMap_token.mpr ?_)
    rw [Lexer.items_of_read hr]
    exact List.mem_cons_self
  · rw [Cursor.sliceFrom, hstop]
    exact Text.slice_eq [] [] d.text

/-- **Behind 2³² bytes a token may have another text**: so many digits are a literal without any. -/
theorem Token.zeros_not_munched : ∃ t ∈ (Token.scan "a" (Lexer.zeros (2 ^ 32))).1,
    t.kind ≠ .eof ∧ ¬ t.kind.Spells t.lexeme := by
  obtain ⟨t, ht, hkind, hlexeme⟩ :=
    Token.exists_empty_zeros (n := 2 ^ 32) (by decide) (by decide) "a"
  refine ⟨t, ht, by simp [hkind], fun hspells => ?_⟩
  rw [hkind, hlexeme] at hspells
  exact hspells.1 rfl

end ProcScript
