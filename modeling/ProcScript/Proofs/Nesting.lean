import ProcScript.Proofs.Locations
import ProcScript.Proofs.Syntax.Placing

/-!
# Nesting

**The spans of a tree are tight and nested** (`SourceText.fits`).  The tokens of a text stand one
behind the other, and whatever the reader skipped, each phrase is read from a stretch of them
(`exists_tokens`): its span reaches from the start of the first of these to the end of the last, and
the phrases it is made of are read from stretches of that stretch, one behind the other.  The script
itself reaches from the first token to the end of the text.
-/

namespace ProcScript

open String (utf8Len)

/-! ### What it is to fit -/

/-- The span lies inside the other one. -/
def Span.Inside (a b : Span) : Prop := b.lo ≤ a.lo ∧ a.hi ≤ b.hi

/-- The phrase is read from the tokens `us`, a stretch of `ts`, and its span is theirs. -/
structure Phrase.ReadFrom (x : Phrase) (ts us : List Token) : Prop where
  stretch : us <:+: ts
  nonempty : us ≠ []
  reads : Piece.Reads x.pieces us
  /-- It starts where its first token does, -/
  start : ∀ t ∈ us.head?, x.span.start = t.span.start
  /-- and ends where its last one does, the `;` or the `end` of a statement or a procedure. -/
  stop : ∀ t ∈ us.getLast?, x.span.stop = t.span.stop ∧ ∀ k ∈ x.closer?, t.kind = k

/-- The spans of a tree, against the tokens and the text it is from. -/
structure Script.Fits (tree : Script) (name text : String) (ts : List Token) : Prop where
  /-- Each phrase has the span of its tokens, -/
  tight : ∀ x, tree.Has x → ∃ us, x.ReadFrom ts us
  /-- which is a stretch of the text that is not empty. -/
  covers : ∀ x, tree.Has x → x.span.Covers name text.toList ∧ x.span.lo < x.span.hi
  /-- What a phrase is made of stands inside it, -/
  nested : ∀ x, tree.Has x → ∀ y ∈ x.children, y.span.Inside x.span
  /-- one behind the other. -/
  apart : ∀ x, tree.Has x → (x.children.map Phrase.span).Pairwise Span.Before
  /-- So do the procedures in the script, -/
  procedures : ∀ p ∈ tree.procedures, p.span.Inside tree.span
  proceduresApart : (tree.procedures.map Procedure.span).Pairwise Span.Before
  /-- which starts with the first token -/
  start : ∃ t ∈ ts.head?, tree.span.start = t.span.start
  /-- and ends with the text. -/
  stop : tree.span.stop = .after text.toList

/-! ### The ends of a script -/

/-- What joins characters of a text and its end reaches from the ones to the other. -/
theorem Span.Covers.merge_atEnd {script : String} {text : List Char} {a : Span}
    (hlen : utf8Len text < 2 ^ 32) (h : a.Covers script text) :
    a.merge (.atEnd script text) = ⟨script, a.start, .after text⟩ := by
  obtain ⟨before, cs, -, ⟨rest, hrest⟩, rfl⟩ := h
  have hoffset {ds : List Char} (hds : ds <+: text) :
      (Position.after ds).offset.toNat = utf8Len ds :=
    Position.offset_after (Nat.lt_of_le_of_lt (String.utf8Len_le_of_prefix hds) hlen)
  have hwhole : before ++ cs <+: text := ⟨rest, hrest⟩
  have hbefore : before <+: text := (List.prefix_append before cs).trans hwhole
  rw [atEnd, stretch, stretch, List.append_nil, Span.merge, if_pos]
  · split
    · rename_i hle
      -- Then the characters end with the text.
      rw [UInt32.le_iff_toNat_le, hoffset (List.prefix_refl text), hoffset hwhole, ← hrest,
        String.utf8Len_append (before ++ cs)] at hle
      have hnil : rest = [] := String.utf8Len_eq_zero.mp (by omega)
      rw [← hrest, hnil, List.append_nil]
    · rfl
  · rw [UInt32.le_iff_toNat_le, hoffset (List.prefix_refl text), hoffset hbefore]
    exact String.utf8Len_le_of_prefix hbefore

/-- Tokens in order reach over characters of the text, if each of them does. -/
theorem Span.covers_across {script : String} {text : List Char} {us : List Token}
    (hlen : utf8Len text < 2 ^ 32) (ho : Token.Ordered us) (hne : us ≠ [])
    (h : ∀ t ∈ us, t.span.Covers script text) : (across us).Covers script text := by
  obtain ⟨t, us, rfl⟩ := List.exists_cons_of_ne_nil hne
  obtain ⟨ht, hus⟩ := List.forall_mem_cons.mp h
  rcases List.eq_nil_or_concat us with rfl | ⟨ws, u, rfl⟩
  · exact ht
  · rw [List.concat_eq_append] at *
    have hmerge : (across [t]).merge (across [u]) = across ([t] ++ ws ++ [u]) :=
      merge_across ho.increasing (List.cons_ne_nil t []) (List.cons_ne_nil u [])
    change (across ([t] ++ ws ++ [u])).Covers script text
    rw [← hmerge]
    exact ht.merge hlen (hus u (List.mem_append_right ws List.mem_cons_self))

theorem Span.merge_self (a : Span) : a.merge a = a := by simp [merge]

namespace SourceText

variable (s : SourceText)

/-! ### The tokens of a text -/

/-- The tokens to read, and the `eof` behind them. -/
theorem scan_eq : s.scan.1 = (Reader.ofTokens s.scan.1).rest ++ [(Reader.ofTokens s.scan.1).stop] ∧
    (Reader.ofTokens s.scan.1).stop = .endOfInput (.atEnd s.name s.text.toList) ∧
    ∀ t ∈ (Reader.ofTokens s.scan.1).rest, t.span.Covers s.name s.text.toList := by
  obtain ⟨ts, hscan, hts, -⟩ := Token.covers_scan s.name s.text
  obtain ⟨hrest, hstop⟩ := Reader.ofTokens_ended (.atEnd s.name s.text.toList)
    fun t ht => (hts t ht).1
  rw [← hscan] at hrest hstop
  rw [scan, hrest, hstop]
  exact ⟨hscan, rfl, fun t ht => (hts t ht).2⟩

/-- The tokens to read are those of the items. -/
theorem rest_scan : (Reader.ofTokens s.scan.1).rest =
    (Lexer.items (.ofString s.name s.text)).filterMap Lexer.Item.token? := by
  have htiled : Lexer.Tiled s.name [] s.text.toList (Lexer.items (.ofString s.name s.text)) :=
    Lexer.tiled_items (.ofString s.name s.text) rfl
  rw [scan, Token.scan_end]
  refine (Reader.ofTokens_ended _ fun t ht => ?_).1
  obtain ⟨_, _, _, _, hkind, -⟩ := htiled.madeOf _ (Lexer.mem_filterMap_token.mp ht)
  exact hkind

theorem head?_scan : s.scan.1.head? = some (Reader.ofTokens s.scan.1).current := by
  have h := s.scan_eq.1
  generalize Reader.ofTokens s.scan.1 = r at h ⊢
  rw [h, Reader.current]
  cases r.rest <;> rfl

variable (hlen : s.text.utf8ByteSize < 2 ^ 32 - 1)
include hlen

/-- The tokens of a text stand one behind the other. -/
theorem ordered_tokens : Token.Ordered (Reader.ofTokens s.scan.1).rest := by
  have haccounts := Lexer.accounts_items s.name s.text hlen
  rw [s.rest_scan]
  refine ⟨fun t ht => haccounts.nonempty _ ?_, List.pairwise_map.mp haccounts.tokens⟩
  exact List.mem_append_left _ (List.mem_map_of_mem ht)

theorem span_read : s.read.1.span = ⟨s.name, (Reader.ofTokens s.scan.1).current.span.start,
    .after s.text.toList⟩ := by
  have hwords : utf8Len s.text.toList < 2 ^ 32 := by
    rw [String.utf8Len_toList]
    omega
  obtain ⟨-, hstop, hcovers⟩ := s.scan_eq
  obtain ⟨us, ds, hp, -⟩ := Reader.lays_procedures (Reader.ofTokens s.scan.1)
  have hlast : (Reader.ofTokens s.scan.1).procedures.2.current.span =
      .atEnd s.name s.text.toList := by
    rw [Reader.current, Reader.procedures_rest]
    exact congrArg Token.span (hp.stop.trans hstop)
  change Span.merge _ _ = _
  rw [hlast]
  cases hrest : (Reader.ofTokens s.scan.1).rest with
  | nil =>
      have hcurrent : (Reader.ofTokens s.scan.1).current.span = .atEnd s.name s.text.toList := by
        rw [Reader.current, hrest]
        exact congrArg Token.span hstop
      rw [hcurrent, Span.merge_self, Span.atEnd, Span.stretch, List.append_nil]
  | cons t ts =>
      have hcurrent : (Reader.ofTokens s.scan.1).current = t := by rw [Reader.current, hrest]; rfl
      rw [hcurrent]
      exact (hcovers t (by rw [hrest]; exact List.mem_cons_self)).merge_atEnd hwords

/-! ### The tree of a text -/

/-- A phrase of the tree, with the tokens it is read from. -/
theorem exists_tokens {x : Phrase} (hx : s.read.1.Has x) :
    ∃ us, us <:+: (Reader.ofTokens s.scan.1).rest ∧ us ≠ [] ∧ Token.Ordered us ∧
      Piece.Reads x.pieces us ∧ x.span = .across us := by
  obtain ⟨front, us, back, hrest, hus, hspan⟩ := (Script.reads_ofTokens s.scan.1).has hx
  have hall := s.ordered_tokens hlen
  rw [hrest] at hall
  have hordered : Token.Ordered us := hall.left.right
  exact ⟨us, ⟨front, back, hrest.symm⟩, hus.phrase_ne_nil, hordered, hus,
    hspan hordered.increasing⟩

theorem readFrom_of_has {x : Phrase} (hx : s.read.1.Has x) : ∃ us, x.ReadFrom s.scan.1 us := by
  obtain ⟨us, hstretch, hne, -, hus, hspan⟩ := s.exists_tokens hlen hx
  refine ⟨us, ?_, hne, hus, fun t ht => ?_, fun t ht => ⟨?_, fun k hk => ?_⟩⟩
  · rw [s.scan_eq.1]
    exact hstretch.trans (List.prefix_append _ _).isInfix
  · obtain ⟨u, us, rfl⟩ := List.exists_cons_of_ne_nil hne
    obtain rfl := Option.some.inj ht
    rw [hspan]
    rfl
  · rw [List.getLast?_eq_some_getLast hne] at ht
    obtain rfl := Option.some.inj ht
    rw [hspan]
    obtain ⟨u, us, rfl⟩ := List.exists_cons_of_ne_nil hne
    rfl
  · rw [List.getLast?_eq_some_getLast hne] at ht
    obtain rfl := Option.some.inj ht
    obtain ⟨ps, hps⟩ := Phrase.exists_closer hk
    rw [hps] at hus
    exact Token.kind_of_word (hus.getLast hne)

theorem covers_of_has {x : Phrase} (hx : s.read.1.Has x) :
    x.span.Covers s.name s.text.toList ∧ x.span.lo < x.span.hi := by
  have hwords : utf8Len s.text.toList < 2 ^ 32 := by
    rw [String.utf8Len_toList]
    omega
  obtain ⟨us, hstretch, hne, hordered, -, hspan⟩ := s.exists_tokens hlen hx
  have hcovers : x.span.Covers s.name s.text.toList := by
    rw [hspan]
    exact Span.covers_across hwords hordered hne fun t ht => s.scan_eq.2.2 t (hstretch.mem ht)
  exact ⟨hcovers, hcovers.lo_lt_hi hlen⟩

/-- **The spans of a tree are tight and nested**, whatever is wrong with its text. -/
theorem fits : s.read.1.Fits s.name s.text s.scan.1 where
  tight x := s.readFrom_of_has hlen
  covers x := s.covers_of_has hlen
  nested x hx y hy := by
    obtain ⟨us, -, -, hordered, hus, hspan⟩ := s.exists_tokens hlen hx
    rw [← Phrase.phrases_pieces] at hy
    rw [hspan]
    exact hus.inside hordered hy
  apart x hx := by
    obtain ⟨us, -, -, hordered, hus, -⟩ := s.exists_tokens hlen hx
    rw [← Phrase.phrases_pieces]
    exact hus.pairwise hordered
  procedures p hp := by
    obtain ⟨hcovers, -⟩ := s.covers_of_has hlen (.procedure hp)
    have hordered := s.ordered_tokens hlen
    have hmem : Phrase.procedure p ∈ s.read.1.pieces.filterMap Piece.phrase? := by
      rw [Script.pieces, Piece.phrases_among]
      exact List.mem_map_of_mem hp
    obtain ⟨hlo, -⟩ := (Script.reads_ofTokens s.scan.1).inside hordered hmem
    obtain ⟨-, t, ht, -⟩ := (Script.reads_ofTokens s.scan.1).ends hordered hmem
    obtain ⟨u, us, hrest⟩ := List.exists_cons_of_ne_nil (List.ne_nil_of_mem ht)
    have hend : (Position.after s.text.toList).offset.toNat = s.text.utf8ByteSize := by
      rw [Position.offset_after (by rw [String.utf8Len_toList]; omega), String.utf8Len_toList]
    rw [hrest] at hlo
    rw [s.span_read hlen, Reader.current, hrest]
    exact ⟨hlo, Nat.le_trans (hcovers.genuine hlen).inside (Nat.le_of_eq hend.symm)⟩
  proceduresApart := by
    have h := (Script.reads_ofTokens s.scan.1).pairwise (s.ordered_tokens hlen)
    rw [Script.pieces, Piece.phrases_among, List.map_map] at h
    exact h
  start := ⟨_, s.head?_scan, by rw [s.span_read hlen]⟩
  stop := by rw [s.span_read hlen]

end SourceText

/-- An `if` in whose block the first statement is cut short. -/
def SourceText.skipping : SourceText := ⟨"a", "def f():Void is if a then b;c();end end"⟩

/-- What is read of the `if`. -/
def SourceText.skipping.kept : Stmt :=
  .ifThen (.var "a" 0 ⟨"a", ⟨1, 20, 19⟩, ⟨1, 21, 20⟩⟩)
    [.call "c" [] ⟨"a", ⟨1, 29, 28⟩, ⟨1, 33, 32⟩⟩] ⟨"a", ⟨1, 17, 16⟩, ⟨1, 36, 35⟩⟩

/-- The `if` is kept, from its first token to its `end`, and the places are those of the tokens,
though the `b;` in it is not. -/
theorem SourceText.skipping_fits :
    skipping.text.utf8ByteSize < 2 ^ 32 - 1 ∧ skipping.read.2 ≠ [] ∧
      skipping.read.1.Has (.stmt skipping.kept) ∧
      skipping.read.1.Fits "a" skipping.text skipping.scan.1 := by
  have hsize : skipping.text.utf8ByteSize < 2 ^ 32 - 1 := by decide
  have hread : skipping.read = (⟨"a", [⟨"f", [], ⟨"Void", ⟨"a", ⟨1, 9, 8⟩, ⟨1, 13, 12⟩⟩⟩,
      [skipping.kept], ⟨"a", ⟨1, 1, 0⟩, ⟨1, 40, 39⟩⟩⟩], ⟨"a", ⟨1, 1, 0⟩, ⟨1, 40, 39⟩⟩⟩,
      [.syntaxError (.expected .callOrAssignment .semicolon)
        ⟨"a", ⟨1, 28, 27⟩, ⟨1, 29, 28⟩⟩]) := by cbv
  have hif : skipping.read.1.Has (.stmt skipping.kept) := by
    rw [hread]
    exact .child (.procedure List.mem_cons_self) (List.mem_cons_of_mem _ List.mem_cons_self)
  exact ⟨hsize, by simp [hread], hif, skipping.fits hsize⟩

end ProcScript
