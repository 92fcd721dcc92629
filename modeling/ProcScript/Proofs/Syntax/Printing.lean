import Mathlib
import ProcScript.Proofs.Lexing.Tiling
import ProcScript.Proofs.Lexing.Spelling
import ProcScript.Proofs.Syntax.Recovery
import ProcScript.Proofs.Syntax.Rereading

/-!
# Syntax — printing

`Script.render` writes a script as a text: its words in the order of the grammar, with one
space between any two.  **A nested script with names that are identifiers and numbers that are
not negative is the script of its text** (`Script.ofText_render`), up to numbers and spans, and
nothing is wrong with the text, as long as no offset in it overflows.  The text is scanned word by
word, since each word is a text of its token; and the reader that faces the words of a nested script
reads that script.
-/

namespace ProcScript

/-- A word as it is written. -/
def Word.text : Word → String
  | .kind k    => k.spelling?.getD ""
  | .name s    => s
  | .int value => toString value.toInt

/-- The words of the script with a space between any two. -/
def Script.render (s : Script) : String := " ".intercalate (s.words.map Word.text)

/-- A name is an identifier and a number is not negative. -/
def Word.IsPlain : Word → Prop
  | .kind _    => True
  | .name s    => Lexer.IsIdentifier s
  | .int value => 0 ≤ value

instance : (w : Word) → Decidable w.IsPlain
  | .kind _     => .isTrue trivial
  | .name s     => inferInstanceAs (Decidable (Lexer.IsIdentifier s))
  | .int value  => inferInstanceAs (Decidable (0 ≤ value))

/-! ### Numbers -/

namespace Text

theorem digitsValue_toDigits (n : Nat) : digitsValue (Nat.toDigits 10 n) = n :=
  Nat.ofDigitChars_toDigits (by decide) (by decide)

theorem integer?_toDigits (n : Nat) : integer? (Nat.toDigits 10 n) = some (n : Int) := by
  have hdigit : ∀ c ∈ Nat.toDigits 10 n, c.isDigit = true := fun c hc =>
    Nat.isDigit_of_mem_toDigits (by decide) (by decide) hc
  have hnat : natural? (Nat.toDigits 10 n) = some n := by
    rw [natural?, if_pos ⟨Nat.toDigits_ne_nil, List.all_eq_true.mpr hdigit⟩, digitsValue_toDigits]
  -- No sign is written.
  rw [integer?, hnat]
  · rfl
  · intro cs heq
    rw [heq] at hdigit
    exact absurd (hdigit '-' (List.mem_cons_self ..)) (by decide)
  · intro cs heq
    rw [heq] at hdigit
    exact absurd (hdigit '+' (List.mem_cons_self ..)) (by decide)

end Text

theorem Word.toList_text_int {value : Int32} (h : 0 ≤ value) :
    (Word.int value).text.toList = Nat.toDigits 10 value.toInt.toNat := by
  obtain ⟨n, hn⟩ := Int.eq_ofNat_of_zero_le (Int32.le_iff_toInt_le.mp h)
  rw [Word.text, hn]
  exact Nat.toList_repr

/-- A number that is not negative is read back. -/
theorem Word.int32?_text {value : Int32} (h : 0 ≤ value) :
    Text.int32? (Word.int value).text = some value := by
  have hn : ((value.toInt.toNat : Nat) : Int) = value.toInt :=
    Int.toNat_of_nonneg (Int32.le_iff_toInt_le.mp h)
  rw [Text.int32?, Word.toList_text_int h, Text.integer?_toDigits, hn]
  simp only
  rw [if_pos ⟨value.minValue_le_toInt, value.toInt_le⟩, Int32.ofInt_toInt]

/-! ### Words are spelled -/

/-- If it is of a kind that is written in one way, that kind has a spelling. -/
def Word.IsSpelled : Word → Prop
  | .kind k => k.spelling?.isSome = true
  | _       => True

theorem Word.isSpelled_separated {α : Type} {w : α → List Word} {as : List α}
    (h : ∀ a ∈ as, ∀ v ∈ w a, v.IsSpelled) : ∀ v ∈ separated (as.map w), v.IsSpelled := by
  induction as with
  | nil => simp [separated]
  | cons a as ih =>
      obtain ⟨ha, has⟩ := List.forall_mem_cons.mp h
      cases as with
      | nil => exact ha
      | cons a' as =>
          rw [List.map_cons, List.map_cons, separated, List.forall_mem_append,
            List.forall_mem_cons]
          exact ⟨ha, rfl, ih has⟩

theorem Expr.isSpelled (e : Expr) : ∀ w ∈ e.words, w.IsSpelled := by
  induction e with
  | binary op left right id span ihl ihr =>
      rw [Expr.words, List.forall_mem_append, List.forall_mem_cons]
      exact ⟨ihl, by cases op <;> rfl, ihr⟩
  | unary op operand id span ih =>
      rw [Expr.words, List.forall_mem_cons]
      exact ⟨by cases op <;> rfl, ih⟩
  | paren inner id span ih =>
      rw [Expr.words, List.forall_mem_cons, List.forall_mem_append]
      exact ⟨rfl, ih, by simp [Word.IsSpelled, Kind.spelling?]⟩
  | var name id span => simp [Expr.words, Word.IsSpelled]
  | bool value id span => cases value <;> simp [Expr.words, Word.IsSpelled, Kind.spelling?]
  | int value id span => simp [Expr.words, Word.IsSpelled]

mutual

theorem Stmt.isSpelled : ∀ (s : Stmt), ∀ w ∈ s.words, w.IsSpelled
  | .varDef _ _ none _ | .ret none _ => by simp [Stmt.words, Word.IsSpelled, Kind.spelling?]
  | .varDef _ _ (some e) _ | .ret (some e) _ | .assign _ e _ => by
      simpa [Stmt.words, Word.IsSpelled, Kind.spelling?, or_imp, forall_and] using e.isSpelled
  | .call _ es _ => by
      simpa [Stmt.words, Word.IsSpelled, Kind.spelling?, or_imp, forall_and] using
        Word.isSpelled_separated fun e (_ : e ∈ es) => e.isSpelled
  | .ifThen e body _ | .whileDo e body _ => by
      simpa [Stmt.words, Word.IsSpelled, Kind.spelling?, or_imp, forall_and] using
        ⟨e.isSpelled, Block.isSpelled body⟩
  | .ifElse e body other _ => by
      simpa [Stmt.words, Word.IsSpelled, Kind.spelling?, or_imp, forall_and] using
        ⟨e.isSpelled, Block.isSpelled body, Block.isSpelled other⟩

theorem Block.isSpelled : ∀ (ss : List Stmt), ∀ w ∈ Block.words ss, w.IsSpelled
  | [] => by simp [Block.words]
  | s :: ss => by
      rw [Block.words, List.forall_mem_append]
      exact ⟨s.isSpelled, Block.isSpelled ss⟩

end

theorem Script.isSpelled (s : Script) : ∀ w ∈ s.words, w.IsSpelled := by
  have hparam : ∀ q : Param, ∀ w ∈ q.words, w.IsSpelled := fun q => by
    simp [Param.words, Word.IsSpelled, Kind.spelling?]
  have hproc : ∀ p : Procedure, ∀ w ∈ p.words, w.IsSpelled := fun p => by
    simpa [Procedure.words, Word.IsSpelled, Kind.spelling?, or_imp, forall_and] using
      ⟨Word.isSpelled_separated fun q (_ : q ∈ p.params) => hparam q, Block.isSpelled p.body⟩
  intro w hw
  obtain ⟨p, -, hp⟩ := List.mem_flatMap.mp hw
  exact hproc p w hp

/-! ### The text of a word -/

theorem Kind.isFixed_of_spelling? {k : Kind} (h : k.spelling?.isSome = true) : k.IsFixed := by
  constructor <;> rintro rfl <;> cases h

/-- The text of a word is one of its token. -/
theorem Word.spells_text {w : Word} (hs : w.IsSpelled) (hp : w.IsPlain) :
    w.tokenKind.Spells w.text := by
  cases w with
  | kind k =>
      obtain ⟨s, hk⟩ := Option.isSome_iff_exists.mp hs
      have ht : (Word.kind k).text = s := by rw [Word.text, hk]; rfl
      have hf := Kind.isFixed_of_spelling? hs
      rw [ht, Kind.Spells]
      · exact hk
      · exact hf.2
      · exact hf.1
  | name s => exact hp
  | int value =>
      show _ ∧ _
      rw [Word.toList_text_int hp]
      refine ⟨Nat.toDigits_ne_nil, fun c hc => Lexer.isDigit_iff.mp ?_⟩
      exact Nat.isDigit_of_mem_toDigits (by decide) (by decide) hc

/-- A token of the kind and text of a word has that word. -/
theorem Token.word_eq {w : Word} {t : Token} (hs : w.IsSpelled) (hp : w.IsPlain)
    (hk : t.kind = w.tokenKind) (hl : t.lexeme = w.text) : t.word = w ∧ t.Readable := by
  cases w with
  | kind k =>
      have hf := Kind.isFixed_of_spelling? hs
      exact ⟨Token.word_of_kind hk hf, fun hi => absurd (hk.symm.trans hi) hf.1⟩
  | name s =>
      refine ⟨?_, fun hi => absurd (hk.symm.trans hi) (by simp [Word.tokenKind])⟩
      rw [Token.word_of_identifier hk, hl]
      rfl
  | int value =>
      have hv : Text.int32? t.lexeme = some value := by rw [hl, Word.int32?_text hp]
      refine ⟨?_, fun _ => by rw [hv]; rfl⟩
      rw [Token.word_of_intLiteral hk, hv]
      rfl

/-- Tokens of the kinds and texts of words have those words. -/
theorem Token.words_eq {ws : List Word} (hw : ∀ w ∈ ws, w.IsSpelled ∧ w.IsPlain)
    {ts : List Token}
    (hts : ts.map (fun t => (t.kind, t.lexeme)) = ws.map fun w => (w.tokenKind, w.text)) :
    ts.map Token.word = ws ∧ ∀ t ∈ ts, t.Readable := by
  induction ws generalizing ts with
  | nil =>
      obtain rfl := List.map_eq_nil_iff.mp hts
      simp
  | cons w ws ih =>
      obtain ⟨t, ts', rfl, ht, hts'⟩ := List.map_eq_cons_iff.mp hts
      obtain ⟨⟨hs, hp⟩, hws⟩ := List.forall_mem_cons.mp hw
      obtain ⟨hk, hl⟩ := Prod.mk.inj ht
      obtain ⟨hword, hread⟩ := Token.word_eq hs hp hk hl
      obtain ⟨hwords, hreads⟩ := ih hws hts'
      exact ⟨by rw [List.map_cons, hword, hwords], List.forall_mem_cons.mpr ⟨hread, hreads⟩⟩

/-! ### The text of a script -/

/-- What comes next is a token of the list, if an `eof` is. -/
theorem Reader.current_ofTokens_mem {ts : List Token} (h : ∃ t ∈ ts, t.kind = .eof) :
    (Reader.ofTokens ts).current ∈ ts := by
  rw [Reader.current]
  cases hr : (Reader.ofTokens ts).rest with
  | cons t us =>
      have hm : t ∈ ts.takeWhile fun t => t.kind ≠ .eof := by
        show t ∈ (Reader.ofTokens ts).rest
        rw [hr]
        exact List.mem_cons_self ..
      exact (List.takeWhile_sublist _).subset hm
  | nil =>
      cases hf : ts.find? fun t => t.kind = .eof with
      | some t =>
          have hstop : (Reader.ofTokens ts).stop = t := by rw [Reader.ofTokens, hf]; rfl
          rw [List.head?_nil, Option.getD_none, hstop]
          exact List.mem_of_find?_eq_some hf
      | none =>
          obtain ⟨t, ht, hk⟩ := h
          exact absurd hk (by simpa using List.find?_eq_none.mp hf t ht)

/-- The source of a script is that of its tokens. -/
theorem Script.source_ofTokens {ts : List Token} {source : String}
    (h : ∀ t ∈ ts, t.span.source = source) (heof : ∃ t ∈ ts, t.kind = .eof) :
    (Script.ofTokens ts).1.source = source :=
  h _ (Reader.current_ofTokens_mem heof)

/-- The text of a script is scanned as its words. -/
theorem Script.scan_render {s : Script} (hw : ∀ w ∈ s.words, w.IsPlain)
    (hlen : s.render.utf8ByteSize < 2 ^ 32) :
    ∃ ts span, Token.scan s.source s.render = (ts ++ [Token.endOfInput span], []) ∧
      (∀ t ∈ ts, t.kind ≠ .eof ∧ t.Readable) ∧ ts.map Token.word = s.words ∧
      ∀ t ∈ ts ++ [Token.endOfInput span], t.span.source = s.source := by
  have hws : ∀ w ∈ s.words, w.IsSpelled ∧ w.IsPlain := fun w h => ⟨s.isSpelled w h, hw w h⟩
  have hspell : ∀ p ∈ s.words.map fun w => (w.tokenKind, w.text), p.1.Spells p.2 := by
    intro _ hp
    obtain ⟨w, hmem, rfl⟩ := List.mem_map.mp hp
    exact Word.spells_text (hws w hmem).1 (hws w hmem).2
  have hrender : s.render =
      " ".intercalate ((s.words.map fun w => (w.tokenKind, w.text)).map Prod.snd) := by
    rw [List.map_map]
    rfl
  rw [hrender] at hlen ⊢
  obtain ⟨ts, span, hscan, hmap, hspan, hsource⟩ := Token.scan_spaced hspell hlen s.source
  obtain ⟨hwords, hread⟩ := Token.words_eq hws hmap
  refine ⟨ts, span, hscan, fun t ht => ⟨?_, hread t ht⟩, hwords, ?_⟩
  · -- No text is one of an `eof`.
    intro heof
    have hp := hspell (t.kind, t.lexeme) (hmap ▸ List.mem_map_of_mem ht)
    rw [heof] at hp
    cases hp
  · rw [List.forall_mem_append, List.forall_mem_singleton]
    exact ⟨hsource, hspan⟩

/-- **Printing, then reading, is the identity.**  A nested script with names that are identifiers
and numbers that are not negative is the script of its text, up to numbers and spans, and nothing is
wrong with the text, if it has fewer bytes than there are offsets. -/
theorem Script.ofText_render {s : Script} (hw : ∀ w ∈ s.words, w.IsPlain) (hn : s.Nested)
    (hlen : s.render.utf8ByteSize < 2 ^ 32) :
    (Script.ofText s.source s.render).1.bare = s.bare ∧
      (Script.ofText s.source s.render).2 = [] := by
  obtain ⟨ts, span, hscan, hts, hwords, hsource⟩ := Script.scan_render hw hlen
  have hus : ((ts ++ [Token.endOfInput span]).takeWhile fun t => t.kind ≠ .eof) = ts := by
    rw [List.takeWhile_append_of_pos (by simpa using fun t ht => (hts t ht).1)]
    simp [Token.endOfInput]
  have hsrc := Script.source_ofTokens hsource ⟨_, List.mem_append_right ts (.head _), rfl⟩
  obtain ⟨hprocs, hfound⟩ := Script.ofTokens_of_words hn (by rw [hus, hwords])
    (by rw [hus]; exact fun t ht => (hts t ht).2)
  simp only [Script.ofText, hscan]
  exact ⟨by rw [Script.bare, Script.bare, hprocs, hsrc], hfound⟩

/-- Operators of several levels, a loop with an `if` and an empty `else` in it, and a call. -/
def Script.counting : Script :=
  ⟨"count", [⟨"show", [⟨"n", ⟨"Int32", .none⟩, .none⟩, ⟨"last", ⟨"Bool", .none⟩, .none⟩],
      ⟨"Void", .none⟩, [], .none⟩,
    ⟨"main", [], ⟨"Int32", .none⟩,
      [.varDef "i" ⟨"Int32", .none⟩ none .none,
        .varDef "done" ⟨"Bool", .none⟩ (some (.bool false 0 .none)) .none,
        .assign "i" (.binary .sub (.binary .sub (.int 10 0 .none) (.var "i" 0 .none) 0 .none)
          (.binary .mul (.int 2 0 .none) (.unary .neg (.var "i" 0 .none) 0 .none) 0 .none)
          0 .none) .none,
        .whileDo (.binary .and (.unary .not (.var "done" 0 .none) 0 .none)
            (.paren (.binary .or (.bool true 0 .none) (.var "done" 0 .none) 0 .none) 0 .none)
            0 .none)
          [.ifElse (.binary .lt (.var "i" 0 .none) (.int 0 0 .none) 0 .none)
            [.call "show" [.var "i" 0 .none, .var "done" 0 .none] .none, .ret none .none] []
            .none] .none,
        .ret (some (.var "i" 0 .none)) .none], .none⟩], .none⟩

theorem Script.counting_render :
    (∀ w ∈ counting.words, w.IsPlain) ∧ counting.Nested ∧ counting.render.utf8ByteSize < 2 ^ 32 ∧
      (Script.ofText counting.source counting.render).1.bare = counting.bare ∧
      (Script.ofText counting.source counting.render).2 = [] :=
  have hw : ∀ w ∈ counting.words, w.IsPlain := by decide
  have hn : counting.Nested := by decide
  have hlen : counting.render.utf8ByteSize < 2 ^ 32 := by decide +kernel
  ⟨hw, hn, hlen, Script.ofText_render hw hn hlen⟩

/-- Every name in the script of a text has fewer bytes than there are offsets. -/
theorem Script.utf8ByteSize_name_lt {source text name : String}
    (h : .name name ∈ (Script.ofText source text).1.words) : name.utf8ByteSize < 2 ^ 32 := by
  have hword := (Script.trail_ofTokens (Token.scan source text).1).sublist.subset h
  obtain ⟨t, ht, hname⟩ := List.mem_map.mp hword
  rw [← Token.lexeme_of_word hname]
  exact Token.utf8ByteSize_lexeme_lt t ((List.takeWhile_sublist _).subset ht)

/-- A procedure without parameters and statements, whose name is `n` times `a`. -/
def Script.drawnOut (n : Nat) : Script :=
  ⟨"a", [⟨.ofList (.replicate n 'a'), [], ⟨"Void", .none⟩, [], .none⟩], .none⟩

theorem Script.nested_drawnOut (n : Nat) : (drawnOut n).Nested := by
  simp [Nested, drawnOut, Block.Nested, Block.preorder]

/-- More letters than a keyword has are a name. -/
theorem Script.plain_drawnOut {n : Nat} (hn : 6 < n) : ∀ w ∈ (drawnOut n).words, w.IsPlain := by
  have hname : Lexer.IsIdentifier (.ofList (.replicate n 'a')) := by
    obtain ⟨m, rfl⟩ := Nat.exists_eq_add_one_of_ne_zero (Nat.ne_zero_of_lt hn)
    have hletter : Lexer.IsLetter 'a' := Lexer.isAlpha_iff.mp rfl
    refine ⟨⟨'a', .replicate m 'a', String.toList_ofList, .inl hletter, fun y hy => ?_⟩,
      fun hmem => ?_⟩
    · rw [List.eq_of_mem_replicate hy]
      exact .inl hletter
    · have hshort : ∀ w ∈ Lexer.reserved, w.length ≤ 6 := by decide
      have hlength := hshort _ hmem
      rw [String.length_ofList, List.length_replicate] at hlength
      exact Nat.not_le_of_lt hn hlength
  have hvoid : Lexer.IsIdentifier "Void" := by decide
  have hwords : (drawnOut n).words = [.kind .kwDef, .name (.ofList (.replicate n 'a')),
      .kind .leftParen, .kind .rightParen, .kind .colon, .name "Void", .kind .kwIs,
      .kind .kwEnd] := rfl
  rw [hwords]
  simp only [List.forall_mem_cons]
  exact ⟨trivial, hname, trivial, trivial, trivial, hvoid, trivial, trivial, by simp⟩

/-- The script of a text has no procedure with a name that long. -/
theorem Script.bare_ofText_ne {n : Nat} (hn : 2 ^ 32 ≤ n) (source text : String) :
    (Script.ofText source text).1.bare ≠ (drawnOut n).bare := by
  intro hback
  have hsize : 'a'.utf8Size = 1 := rfl
  have hprocedures := congrArg Script.procedures hback
  obtain ⟨p, ps, hp, hbare, -⟩ := List.map_eq_cons_iff.mp hprocedures
  have hname : p.name = .ofList (.replicate n 'a') := congrArg Procedure.name hbare
  have hmem : .name p.name ∈ (Script.ofText source text).1.words :=
    List.mem_flatMap.mpr ⟨p, by rw [hp]; exact List.mem_cons_self, by simp [Procedure.words]⟩
  have hlt := utf8ByteSize_name_lt hmem
  rw [hname, ← String.utf8Len_toList, String.toList_ofList, utf8Len_replicate, hsize,
    Nat.mul_one] at hlt
  exact Nat.not_le_of_lt hlt hn

/-- **Behind 2³² bytes a script may not be read back**: so many letters are a name, and no procedure
that is read has it. -/
theorem Script.drawnOut_lost :
    (∀ w ∈ (drawnOut (2 ^ 32)).words, w.IsPlain) ∧ (drawnOut (2 ^ 32)).Nested ∧
      (Script.ofText "a" (drawnOut (2 ^ 32)).render).1.bare ≠ (drawnOut (2 ^ 32)).bare :=
  ⟨plain_drawnOut (by decide), nested_drawnOut _, bare_ofText_ne (Nat.le_refl _) _ _⟩

end ProcScript
