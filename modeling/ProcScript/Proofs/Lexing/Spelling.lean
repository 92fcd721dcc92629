import ProcScript.Proofs.Lexing.Passage
import ProcScript.Token.Lexer

/-!
# Lexing — texts of words

`k.Spells s` says that `s` is a text of a token of kind `k`, letter by letter and without the
lexer, whose own tests are the same (`isWordStart_iff`, `isWordChar_iff`, `keyword?_eq_none_iff`).
Where such a text is followed by a space or by the end, it is read as that token
(`read_spelled`); so a text of words with a space between any two is read as those words, each as
its kind, and nothing is wrong with it (`Token.scan_spaced`), as long as its offsets do not
overflow.
-/

namespace ProcScript

namespace Lexer

/-- `A` to `Z` or `a` to `z`. -/
def IsLetter (x : Char) : Prop := 'A' ≤ x ∧ x ≤ 'Z' ∨ 'a' ≤ x ∧ x ≤ 'z'

/-- `0` to `9`. -/
def IsDigit (x : Char) : Prop := '0' ≤ x ∧ x ≤ '9'

/-- Letters, digits and `_`, one at least and the first no digit. -/
def IsWord (s : String) : Prop :=
  ∃ x xs, s.toList = x :: xs ∧ (IsLetter x ∨ x = '_') ∧ ∀ y ∈ xs, IsLetter y ∨ IsDigit y ∨ y = '_'

/-- The words that are no names. -/
def reserved : List String :=
  ["def", "is", "end", "var", "return", "if", "then", "else", "while", "do", "true", "false",
    "and", "or", "not"]

/-- A word that is not reserved. -/
def IsIdentifier (s : String) : Prop := IsWord s ∧ s ∉ reserved

/-- Digits, one at least. -/
def IsNumeral (s : String) : Prop := s.toList ≠ [] ∧ ∀ x ∈ s.toList, IsDigit x

end Lexer

/-- The text is one of a token of the kind. -/
def Kind.Spells (k : Kind) (s : String) : Prop :=
  match k with
  | .identifier => Lexer.IsIdentifier s
  | .intLiteral => Lexer.IsNumeral s
  | k           => k.spelling? = some s

namespace Lexer

/-- Nothing or a space comes next. -/
def Gap (cs : List Char) : Prop := ∀ x ∈ cs.head?, x = ' '

variable {c d : Cursor} {k : Kind} {s : String} {cs tail : List Char} {x : Char}

/-! ### The tests of the lexer -/

theorem isDigit_iff : x.isDigit = true ↔ IsDigit x := by
  show (decide _ && decide _) = true ↔ _
  rw [Bool.and_eq_true, decide_eq_true_eq, decide_eq_true_eq]
  rfl

theorem isAlpha_iff : x.isAlpha = true ↔ IsLetter x := by
  show (decide (_ ∧ _) || (decide _ && decide _)) = true ↔ _
  rw [Bool.or_eq_true, Bool.and_eq_true, decide_eq_true_eq, decide_eq_true_eq, decide_eq_true_eq]
  rfl

theorem isWordStart_iff : isWordStart x = true ↔ IsLetter x ∨ x = '_' := by
  rw [isWordStart, Bool.or_eq_true, isAlpha_iff, beq_iff_eq]

theorem isWordChar_iff : isWordChar x = true ↔ IsLetter x ∨ IsDigit x ∨ x = '_' := by
  rw [isWordChar, Char.isAlphanum, Bool.or_eq_true, Bool.or_eq_true, isAlpha_iff, isDigit_iff,
    beq_iff_eq, or_assoc]

theorem mem_reserved_iff : s ∈ reserved ↔ ∃ k ∈ Kind.keywords, k.spelling? = some s := by
  have hreserved : Kind.keywords.filterMap Kind.spelling? = reserved := rfl
  rw [← hreserved, List.mem_filterMap]

theorem keyword?_eq_none_iff : Kind.keyword? s = none ↔ s ∉ reserved := by
  rw [mem_reserved_iff, Kind.keyword?, List.find?_eq_none]
  simp

theorem isWord_iff :
    IsWord s ↔ s.toList.head?.any isWordStart = true ∧ s.toList.tail.all isWordChar = true := by
  simp only [IsWord, List.all_eq_true, ← isWordStart_iff, ← isWordChar_iff]
  cases s.toList <;> simp

instance (s : String) : Decidable (IsWord s) := decidable_of_iff _ isWord_iff.symm

instance (s : String) : Decidable (IsIdentifier s) :=
  decidable_of_iff (IsWord s ∧ Kind.keyword? s = none) (and_congr_right' keyword?_eq_none_iff)

theorem isNumeral_iff :
    IsNumeral s ↔ s.toList.isEmpty = false ∧ s.toList.all Char.isDigit = true := by
  simp only [IsNumeral, List.all_eq_true, isDigit_iff, List.isEmpty_eq_false_iff]

instance (s : String) : Decidable (IsNumeral s) := decidable_of_iff _ isNumeral_iff.symm

theorem isWordChar_of_isWordStart (h : isWordStart x = true) : isWordChar x = true :=
  isWordChar_iff.mpr ((isWordStart_iff.mp h).imp_right .inr)

theorem isWordChar_of_isDigit (h : x.isDigit = true) : isWordChar x = true :=
  isWordChar_iff.mpr (.inr (.inl (isDigit_iff.mp h)))

theorem toNat_of_isWordChar (h : isWordChar x = true) : 48 ≤ x.toNat ∧ x.toNat ≤ 122 := by
  have hle {a b : Char} (h : a ≤ b) : a.toNat ≤ b.toNat := h
  rcases isWordChar_iff.mp h with (⟨h, h'⟩ | ⟨h, h'⟩) | ⟨h, h'⟩ | rfl
  · exact ⟨Nat.le_trans (by decide) (hle h), Nat.le_trans (hle h') (by decide)⟩
  · exact ⟨Nat.le_trans (by decide) (hle h), Nat.le_trans (hle h') (by decide)⟩
  · exact ⟨hle h, Nat.le_trans (hle h') (by decide)⟩
  · decide

theorem isBlank_eq_false (h : isWordChar x = true) : Text.isBlank x = false := by
  obtain ⟨hlo, hhi⟩ := toNat_of_isWordChar h
  have hranges : ∀ r ∈ Text.blankRanges, r.2 < 48 ∨ 122 < r.1 := by decide
  rw [Text.isBlank, List.any_eq_false]
  intro r hr
  have hout := hranges r hr
  simp only [Bool.and_eq_true, decide_eq_true_eq]
  omega

theorem isWordStart_eq_false_of_isDigit (h : x.isDigit = true) : isWordStart x = false := by
  obtain ⟨-, hnine⟩ := isDigit_iff.mp h
  rw [Bool.eq_false_iff]
  intro hs
  -- Letters and `_` come behind the digits.
  rcases isWordStart_iff.mp hs with (⟨hs, -⟩ | ⟨hs, -⟩) | rfl
  · exact absurd (Char.le_trans hs hnine) (by decide)
  · exact absurd (Char.le_trans hs hnine) (by decide)
  · exact absurd hnine (by decide)

/-! ### One token -/

/-- The token between two places, where the text between them is known. -/
theorem emit_eq (h : c.Passes d s.toList) (hreach : c.Reaches s.toList) (k : Kind) :
    emit k c d = (some (.token ⟨k, s, ⟨c.script, c.pos, d.pos⟩⟩), d) := by
  rw [emit, h.sliceFrom hreach, String.ofList_toList, Cursor.spanFrom, h.script]

theorem takeWhile_gap {p : Char → Bool} (hcs : ∀ x ∈ cs, p x = true) (hp : p ' ' = false)
    (ht : Gap tail) : (cs ++ tail).takeWhile p = cs := by
  rw [List.takeWhile_append_of_pos hcs]
  cases tail with
  | nil => simp
  | cons y tail =>
      obtain rfl := ht y rfl
      simp [hp]

/-- A word is read as the keyword it is or else as an identifier. -/
theorem read_word (hs : IsWord s) (hc : c.rest = s.toList ++ tail) (ht : Gap tail)
    (hreach : c.Reaches s.toList) :
    ∃ d, c.Passes d s.toList ∧ read c = emit ((Kind.keyword? s).getD .identifier) c d := by
  obtain ⟨x, xs, hx, hstart, hxs⟩ := hs
  rw [← isWordStart_iff] at hstart
  simp only [← isWordChar_iff] at hxs
  have hc' : c.rest = x :: (xs ++ tail) := by rw [hc, hx, List.cons_append]
  have hadv := Cursor.Passes.advance hc'
  have hrest : c.advance.rest = xs ++ tail := by rw [Cursor.advance_rest, hc', List.tail_cons]
  have hp := hadv.trans (.eatWhile isWordChar c.advance)
  rw [hrest, takeWhile_gap hxs (by decide) ht, List.singleton_append, ← hx] at hp
  refine ⟨_, hp, ?_⟩
  rw [read, hc']
  simp only [isBlank_eq_false (isWordChar_of_isWordStart hstart), hstart, Bool.false_eq_true,
    if_false, if_true]
  rw [emitWord, hp.sliceFrom hreach, String.ofList_toList]

theorem read_digits (hne : s.toList ≠ []) (hs : ∀ x ∈ s.toList, x.isDigit = true)
    (hc : c.rest = s.toList ++ tail) (ht : Gap tail) :
    ∃ d, c.Passes d s.toList ∧ read c = emit .intLiteral c d := by
  obtain ⟨x, xs, hx⟩ := List.exists_cons_of_ne_nil hne
  rw [hx, List.forall_mem_cons] at hs
  obtain ⟨hstart, hxs⟩ := hs
  have hc' : c.rest = x :: (xs ++ tail) := by rw [hc, hx, List.cons_append]
  have hadv := Cursor.Passes.advance hc'
  have hrest : c.advance.rest = xs ++ tail := by rw [Cursor.advance_rest, hc', List.tail_cons]
  have hp := hadv.trans (.eatWhile Char.isDigit c.advance)
  rw [hrest, takeWhile_gap hxs (by decide) ht, List.singleton_append, ← hx] at hp
  refine ⟨_, hp, ?_⟩
  rw [read, hc']
  simp only [isBlank_eq_false (isWordChar_of_isDigit hstart),
    isWordStart_eq_false_of_isDigit hstart, hstart, Bool.false_eq_true, if_false, if_true]

/-- A character that starts neither a word nor a literal and is no blank. -/
def IsSymbol (x : Char) : Prop :=
  Text.isBlank x = false ∧ isWordStart x = false ∧ x.isDigit = false

instance (x : Char) : Decidable (IsSymbol x) := inferInstanceAs (Decidable (_ ∧ _))

theorem read_symbol (hx : IsSymbol x) (hc : c.rest = x :: tail) :
    read c = readSymbol x c c.advance := by
  obtain ⟨h, h', h''⟩ := hx
  rw [read, hc]
  simp only [h, h', h'', Bool.false_eq_true, if_false]

/-- Behind what is followed by a gap no `=`, `/` or `*` comes next. -/
theorem Gap.eat?_eq_none (ht : Gap tail) (hc : c.rest = tail) (hx : x ≠ ' ') :
    c.eat? x = none := by
  refine Cursor.eat?_eq_none fun h => hx ?_
  rw [hc] at h
  exact ht x h

/-- One character that is a token of its own. -/
theorem read_one (hx : IsSymbol x) (hc : c.rest = x :: tail)
    (hr : readSymbol x c c.advance = emit k c c.advance) :
    ∃ d, c.Passes d [x] ∧ read c = emit k c d :=
  ⟨c.advance, .advance hc, (read_symbol hx hc).trans hr⟩

/-- A character with a `=` behind it. -/
theorem read_two (hx : IsSymbol x) (hc : c.rest = x :: '=' :: tail)
    (hr : readSymbol x c c.advance = emit k c c.advance.advance) :
    ∃ d, c.Passes d [x, '='] ∧ read c = emit k c d := by
  have hrest : c.advance.rest = '=' :: tail := by rw [Cursor.advance_rest, hc, List.tail_cons]
  exact ⟨c.advance.advance, (Cursor.Passes.advance hc).trans (.advance hrest),
    (read_symbol hx hc).trans hr⟩

/-- Keywords are words. -/
theorem isWord_of_keyword (hk : k ∈ Kind.keywords) (hs : k.spelling? = some s) : IsWord s := by
  have hall : ∀ k ∈ Kind.keywords, ∀ s ∈ k.spelling?, IsWord s := by decide
  exact hall k hk s hs

/-- A kind that is spelled with symbols: one, or one with a `=` behind it. -/
theorem read_operator (hk : k ∉ Kind.keywords) (hs : k.spelling? = some s)
    (hc : c.rest = s.toList ++ tail) (ht : Gap tail) :
    ∃ d, c.Passes d s.toList ∧ read c = emit k c d := by
  have hnext : ∀ x xs, c.rest = x :: xs → c.advance.rest = xs := by
    intro x xs h
    rw [Cursor.advance_rest, h, List.tail_cons]
  cases k with
  | leftParen | rightParen | comma | semicolon | plus | minus | star =>
      obtain rfl := Option.some.inj hs
      exact read_one (by decide) hc rfl
  | slash =>
      obtain rfl := Option.some.inj hs
      -- The gap rules out both kinds of comment.
      refine read_one (by decide) hc ?_
      show readSlash c c.advance = _
      rw [readSlash, ht.eat?_eq_none (hnext _ _ hc) (by decide),
        ht.eat?_eq_none (hnext _ _ hc) (by decide)]
  | colon | less | greater =>
      obtain rfl := Option.some.inj hs
      refine read_one (by decide) hc ?_
      show emitEquals _ _ c c.advance = _
      rw [emitEquals, ht.eat?_eq_none (hnext _ _ hc) (by decide)]
  | colonEqual | lessEqual | greaterEqual =>
      obtain rfl := Option.some.inj hs
      refine read_two (by decide) hc ?_
      show emitEquals _ _ c c.advance = _
      rw [emitEquals, Cursor.eat?_eq_some (x := '=') (hnext _ _ hc)]
  | equalEqual | bangEqual =>
      obtain rfl := Option.some.inj hs
      refine read_two (by decide) hc ?_
      show needEquals _ _ c c.advance = _
      rw [needEquals, Cursor.eat?_eq_some (x := '=') (hnext _ _ hc)]
  | intLiteral | identifier | eof => cases hs
  | _ => exact absurd (by decide) hk

/-- **A text of a token, followed by a gap, is read as that token.** -/
theorem read_spelled (hk : k.Spells s) (hc : c.rest = s.toList ++ tail) (ht : Gap tail)
    (hreach : c.Reaches s.toList) : ∃ d, c.Passes d s.toList ∧
      read c = (some (.token ⟨k, s, ⟨c.script, c.pos, d.pos⟩⟩), d) := by
  have hemit : ∃ d, c.Passes d s.toList ∧ read c = emit k c d := by
    by_cases hid : k = .identifier
    · subst hid
      obtain ⟨d, hp, hr⟩ := read_word hk.1 hc ht hreach
      rw [keyword?_eq_none_iff.mpr hk.2] at hr
      exact ⟨d, hp, hr⟩
    · by_cases hint : k = .intLiteral
      · subst hint
        exact read_digits hk.1 (fun x hx => isDigit_iff.mpr (hk.2 x hx)) hc ht
      · have hs : k.spelling? = some s := by
          rw [Kind.Spells] at hk
          · exact hk
          · exact hid
          · exact hint
        by_cases hkw : k ∈ Kind.keywords
        · obtain ⟨d, hp, hr⟩ := read_word (isWord_of_keyword hkw hs) hc ht hreach
          rw [Kind.keyword?_eq_some_iff.mpr ⟨hkw, hs⟩] at hr
          exact ⟨d, hp, hr⟩
        · exact read_operator hkw hs hc ht
  obtain ⟨d, hp, hr⟩ := hemit
  exact ⟨d, hp, hr.trans (emit_eq hp hreach k)⟩

/-! ### Texts with spaces -/

theorem items_of_nil (hc : c.rest = []) : items c = [] := by
  rw [items, dif_pos hc]

theorem items_of_rest (hc : c.rest ≠ []) : items c = (read c).1.toList ++ items (read c).2 := by
  rw [items, dif_neg hc]

theorem items_of_read {item : Item} (h : read c = (some item, d)) : items c = item :: items d := by
  have hc : c.rest ≠ [] := by
    intro hnil
    simp [read, hnil] at h
  rw [items_of_rest hc, h]
  rfl

theorem items_blank (hc : c.rest = x :: tail) (hx : Text.isBlank x = true) :
    items c = items c.advance := by
  have hr : read c = (none, c.advance) := by
    rw [read, hc]
    exact if_pos hx
  rw [items_of_rest (by simp [hc]), hr]
  rfl

/-- Nothing is read of blanks. -/
theorem items_blanks {gap : List Char} (hgap : ∀ x ∈ gap, Text.isBlank x = true) {c : Cursor}
    (hc : c.rest = gap ++ tail) : ∃ d, c.Passes d gap ∧ items c = items d := by
  induction gap generalizing c with
  | nil => exact ⟨c, .refl c, rfl⟩
  | cons x gap ih =>
      obtain ⟨hx, hgap⟩ := List.forall_mem_cons.mp hgap
      have hp := Cursor.Passes.advance hc
      have hnext : c.advance.rest = gap ++ tail := by rw [Cursor.advance_rest, hc]; rfl
      obtain ⟨d, hd, hitems⟩ := ih hgap hnext
      exact ⟨d, hp.trans hd, (items_blank hc hx).trans hitems⟩

/-- Texts of tokens with a space between any two are read as those tokens. -/
theorem items_spaced {ps : List (Kind × String)} (h : ∀ p ∈ ps, p.1.Spells p.2) {c : Cursor}
    (hc : c.rest = [' '].intercalate (ps.map fun p => p.2.toList)) (hreach : c.Reaches c.rest) :
    ∃ ts : List Token, items c = ts.map Item.token ∧ ts.map (fun t => (t.kind, t.lexeme)) = ps ∧
      ∀ t ∈ ts, t.span.source = c.script := by
  induction ps generalizing c with
  | nil =>
      have hnil : c.rest = [] := hc
      exact ⟨[], items_of_nil hnil, rfl, by simp⟩
  | cons p ps ih =>
      obtain ⟨hp, hps⟩ := List.forall_mem_cons.mp h
      cases ps with
      | nil =>
          have hc' : c.rest = p.2.toList ++ [] := by
            rw [hc, List.map_cons, List.map_nil, List.intercalate_singleton, List.append_nil]
          obtain ⟨d, hd, hr⟩ := read_spelled hp hc' (by simp [Gap]) (hc' ▸ hreach).of_append
          have hnil : d.rest = [] := by simpa [hc'] using hd.rest
          refine ⟨[⟨p.1, p.2, ⟨c.script, c.pos, d.pos⟩⟩], ?_, rfl, by simp⟩
          rw [items_of_read hr, items_of_nil hnil]
          rfl
      | cons q ps =>
          have hc' : c.rest = p.2.toList ++ ' ' :: [' '].intercalate
              ((q :: ps).map fun p => p.2.toList) := by
            rw [hc]
            simp [List.intercalate_cons_cons]
          obtain ⟨d, hd, hr⟩ := read_spelled hp hc' (by simp [Gap]) (hc' ▸ hreach).of_append
          have hspace := List.append_cancel_left (hd.rest.symm.trans hc')
          have hadv := Cursor.Passes.advance hspace
          obtain ⟨ts, hts, hmap, hsource⟩ := ih hps (List.cons.inj (hadv.rest.symm.trans hspace)).2
            (hadv.reaches_rest (hd.reaches_rest hreach))
          refine ⟨⟨p.1, p.2, ⟨c.script, c.pos, d.pos⟩⟩ :: ts, ?_, ?_, ?_⟩
          · rw [items_of_read hr, items_blank hspace (by decide), hts, List.map_cons]
          · rw [List.map_cons, hmap]
          · rw [List.forall_mem_cons]
            refine ⟨rfl, fun t ht => ?_⟩
            rw [hsource t ht, hadv.script, hd.script]

end Lexer

theorem Token.scan_eq {script text : String} {ts : List Token}
    (h : Lexer.items (.ofString script text) = ts.map Lexer.Item.token) :
    ∃ span : Span, span.source = script ∧
      Token.scan script text = (ts ++ [Token.endOfInput span], []) := by
  have hfinish := Cursor.Passes.eatWhile (fun _ => true) (Cursor.ofString script text)
  refine ⟨(Cursor.ofString script text).finish.spanFrom (Cursor.ofString script text).finish.pos,
    hfinish.script, ?_⟩
  have htoken : (ts.map Lexer.Item.token).filterMap Lexer.Item.token? = ts := by
    rw [List.filterMap_map]
    exact List.filterMap_some
  have hproblem : (ts.map Lexer.Item.token).filterMap Lexer.Item.problem? = [] := by
    simp [List.filterMap_eq_nil_iff, Lexer.Item.problem?]
  simp only [Token.scan, h, htoken, hproblem]

/-- **Texts of tokens with a space between any two are scanned as those tokens.** -/
theorem Token.scan_spaced {ps : List (Kind × String)} (h : ∀ p ∈ ps, p.1.Spells p.2)
    (hlen : (" ".intercalate (ps.map Prod.snd)).utf8ByteSize < 2 ^ 32) (script : String) :
    ∃ ts : List Token, ∃ span : Span,
      Token.scan script (" ".intercalate (ps.map Prod.snd)) = (ts ++ [.endOfInput span], []) ∧
        ts.map (fun t => (t.kind, t.lexeme)) = ps ∧ span.source = script ∧
        ∀ t ∈ ts, t.span.source = script := by
  have hrest : (Cursor.ofString script (" ".intercalate (ps.map Prod.snd))).rest =
      [' '].intercalate (ps.map fun p => p.2.toList) := by
    simp [Cursor.ofString, Function.comp_def]
  obtain ⟨ts, hts, hmap, hsource⟩ := Lexer.items_spaced h hrest (Cursor.reaches_ofString hlen)
  obtain ⟨span, hspan, hscan⟩ := Token.scan_eq hts
  exact ⟨ts, span, hscan, hmap, hspan, hsource⟩

end ProcScript
