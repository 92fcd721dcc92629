import Mathlib
import ProcScript.Proofs.Annotations
import ProcScript.Proofs.Check.Names
import ProcScript.Proofs.Layout
import ProcScript.Proofs.Lexing.Munch
import ProcScript.Proofs.Lexing.Restart
import ProcScript.Proofs.Syntax.Recovery

/-!
# One line

**Whatever is wrong with a script is said on one line** (`Analyzer.messages_oneLine`), if its name
is one and no offset in its text overflows.  A message is put together from wordings, numbers, the
name of the script and pieces of its text.  There are three ways for a piece of the text to get into
one: as the character that starts no token, as the text of a token, and as a name or a type of the
tree.  A line feed is a blank, so it is never the first; a text of a token has no line feed
(`Kind.Spells.oneLine`); and the names and types of a tree are texts of tokens, those that are
reported among them.
-/

namespace ProcScript

open String (utf8Len)

/-- There is no line feed in the text. -/
def OneLine (s : String) : Prop := '\n' ∉ s.toList

instance (s : String) : Decidable (OneLine s) := inferInstanceAs (Decidable (¬ _))

theorem oneLine_append {a b : String} : OneLine (a ++ b) ↔ OneLine a ∧ OneLine b := by
  simp [OneLine]

theorem oneLine_toString (n : Nat) : OneLine (toString n) := by
  have htext : (toString n).toList = Nat.toDigits 10 n := Nat.toList_repr
  intro hfeed
  rw [htext] at hfeed
  exact absurd (Nat.isDigit_of_mem_toDigits (by decide) (by decide) hfeed) (by decide)

/-! ### Wordings -/

theorem Kind.oneLine_describe (k : Kind) : OneLine k.describe := by
  have hall : ∀ k ∈ all, OneLine k.describe := by decide
  exact hall k k.mem_all

theorem Expected.oneLine_describe (what : Expected) : OneLine what.describe := by
  cases what with
  | token k => exact k.oneLine_describe
  | expression | statement | callOrAssignment => decide

theorem Ty.oneLine_name (t : Ty) : OneLine t.name := by
  cases t <;> decide

theorem SymbolKind.oneLine_name (k : SymbolKind) : OneLine k.name := by
  cases k <;> decide

theorem UnreachableReason.oneLine_message (r : UnreachableReason) : OneLine r.message := by
  cases r <;> simp [OneLine, message]

theorem Position.oneLine_render (p : Position) : OneLine p.render := by
  rw [render, oneLine_append, oneLine_append]
  exact ⟨⟨oneLine_toString p.line.toNat, by decide⟩, oneLine_toString p.column.toNat⟩

theorem Span.oneLine_render {s : Span} (h : OneLine s.source) : OneLine s.render := by
  rw [render, oneLine_append, oneLine_append]
  exact ⟨⟨h, by decide⟩, s.start.oneLine_render⟩

theorem Misuse.oneLine_unknownType {name : String} {loc : Span} (hname : OneLine name)
    (hloc : OneLine loc.source) : OneLine (Misuse.unknownType name loc).message := by
  show OneLine (_ ++ _ ++ _ ++ _)
  simp only [oneLine_append]
  refine ⟨⟨⟨?_, hname⟩, ?_⟩, Span.oneLine_render hloc⟩ <;> simp [OneLine]

/-- A message is one line if what it takes from the script is. -/
theorem Diagnostic.oneLine_message {d : Diagnostic} (hloc : OneLine d.loc.source)
    (hname : ∀ name, d.name? = some name → OneLine name)
    (herror : ∀ error loc, d = .syntaxError error loc → OneLine error.message) :
    OneLine d.message := by
  have hrender := Span.oneLine_render hloc
  -- What is left in each case is the wording.
  cases d with
  | dupSymbol name symbol loc =>
      show OneLine (_ ++ _ ++ _ ++ _ ++ _ ++ _)
      simp only [oneLine_append]
      refine ⟨⟨⟨⟨⟨?_, symbol.oneLine_name⟩, ?_⟩, hrender⟩, ?_⟩, hname name rfl⟩ <;> simp [OneLine]
  | noSuchSymbol name loc =>
      show OneLine (_ ++ _ ++ _ ++ _)
      simp only [oneLine_append]
      refine ⟨⟨⟨?_, hrender⟩, ?_⟩, hname name rfl⟩ <;> simp [OneLine]
  | typeMismatch expected actual loc =>
      show OneLine (_ ++ _ ++ _ ++ _ ++ _ ++ _)
      simp only [oneLine_append]
      refine ⟨⟨⟨⟨⟨?_, hrender⟩, ?_⟩, expected.oneLine_name⟩, ?_⟩, actual.oneLine_name⟩ <;>
        simp [OneLine]
  | argCountMismatch expected actual loc =>
      show OneLine (_ ++ _ ++ _ ++ _ ++ _ ++ _)
      simp only [oneLine_append]
      refine ⟨⟨⟨⟨⟨?_, hrender⟩, ?_⟩, oneLine_toString expected⟩, ?_⟩, oneLine_toString actual⟩ <;>
        simp [OneLine]
  | returnCountMismatch expected loc =>
      show OneLine (_ ++ _ ++ _ ++ _ ++ _)
      simp only [oneLine_append]
      refine ⟨⟨⟨⟨?_, hrender⟩, ?_⟩, oneLine_toString expected⟩, ?_⟩ <;> simp [OneLine]
  | unreachable reason loc =>
      show OneLine (_ ++ _ ++ _ ++ _)
      simp only [oneLine_append]
      refine ⟨⟨⟨?_, hrender⟩, ?_⟩, reason.oneLine_message⟩ <;> simp [OneLine]
  | syntaxError error loc =>
      show OneLine (_ ++ _ ++ _ ++ _)
      simp only [oneLine_append]
      refine ⟨⟨⟨?_, hrender⟩, ?_⟩, herror error loc rfl⟩ <;> simp [OneLine]

/-! ### The characters of a text -/

/-- No text of a token has a line feed in it. -/
theorem Kind.Spells.oneLine {k : Kind} {s : String} (h : k.Spells s) : OneLine s := by
  intro hfeed
  rcases Lexer.cases_of_spells h with ⟨-, hall⟩ | ⟨-, hall⟩ | hop
  · exact absurd (hall _ hfeed) (by decide)
  · exact absurd (hall _ hfeed) (by decide)
  · have hops : ∀ s ∈ Lexer.operators, OneLine s := by decide
    exact hops s hop hfeed

/-- A character at fault is no line feed, since that is a blank. -/
theorem SyntaxError.Faults.oneLine {e : SyntaxError} {cs after : List Char}
    (h : e.Faults cs after) : OneLine e.message := by
  cases e with
  | unexpectedChar x =>
      obtain ⟨-, hblank, -⟩ := h
      have hfeed : '\n' ≠ x := by
        rintro rfl
        exact absurd hblank (by decide)
      show OneLine (_ ++ String.singleton x ++ _)
      simp only [oneLine_append]
      refine ⟨⟨?_, ?_⟩, ?_⟩
      · simp [OneLine]
      · simpa [OneLine] using hfeed
      · decide
  | loneEquals | loneBang | openComment => decide +kernel
  | expected | outOfRange | callAsValue | stated => cases h

/-- What a reader reports is one line if the texts of its tokens are. -/
theorem Diagnostic.ReadFrom.oneLine {r : Reader} (hr : ∀ t ∈ r.rest, OneLine t.lexeme)
    {error : SyntaxError} {loc : Span} (h : (Diagnostic.syntaxError error loc).ReadFrom r) :
    OneLine error.message := by
  cases h with
  | expected what h =>
      show OneLine (_ ++ what.describe ++ _ ++ Kind.describe _)
      simp only [oneLine_append]
      refine ⟨⟨⟨?_, what.oneLine_describe⟩, ?_⟩, Kind.oneLine_describe _⟩ <;> simp [OneLine]
  | outOfRange h =>
      show OneLine (_ ++ _ ++ _)
      simp only [oneLine_append]
      refine ⟨⟨?_, hr _ h⟩, ?_⟩ <;> simp [OneLine]
  | callAsValue h =>
      show OneLine (_ ++ _ ++ _)
      simp only [oneLine_append]
      refine ⟨⟨?_, hr _ h⟩, ?_⟩ <;> simp [OneLine]

/-! ### The names of scripts in spans -/

theorem Span.Joins.source_eq {ts : List Token} {script : String} {x : Span}
    (hts : ∀ t ∈ ts, t.span.source = script) (h : Joins ts x) : x.source = script := by
  induction h with
  | token ht => exact hts _ ht
  | merge _ _ iha _ => exact iha

theorem Diagnostic.ReadFrom.source_eq {r : Reader} {d : Diagnostic} {script : String}
    (hr : ∀ t ∈ r.rest, t.span.source = script) (hstop : r.stop.span.source = script)
    (h : d.ReadFrom r) : d.loc.source = script := by
  cases h with
  | expected what h =>
      rcases h with h | rfl
      · exact hr _ h
      · exact hstop
  | outOfRange h => exact hr _ h
  | callAsValue h => exact hr _ h

namespace SourceText

variable (s : SourceText)

/-- What is wrong with the characters of a text is one line, -/
theorem oneLine_scan (hname : OneLine s.name) : ∀ d ∈ s.scan.2, OneLine d.message := by
  have htiled : Lexer.Tiled s.name [] s.text.toList (Lexer.items (.ofString s.name s.text)) :=
    Lexer.tiled_items (.ofString s.name s.text) rfl
  intro d hd
  obtain ⟨e, loc, hi, rfl⟩ := Lexer.mem_filterMap_problem.mp hd
  obtain ⟨before, cs, after, -, hfault, rfl⟩ := htiled.madeOf _ hi
  refine Diagnostic.oneLine_message hname (fun _ h => by cases h) fun error loc heq => ?_
  obtain ⟨rfl, -⟩ := Diagnostic.syntaxError.inj heq
  exact hfault.oneLine

variable (hlen : s.text.utf8ByteSize < 2 ^ 32)
include hlen

/-- and so are its tokens, which name the script. -/
theorem oneLine_tokens : ∀ t ∈ (Reader.ofTokens s.scan.1).rest,
    OneLine t.lexeme ∧ t.span.source = s.name := by
  intro t ht
  rw [s.rest_scan] at ht
  obtain ⟨before, after, -, hspan, hmunches⟩ :=
    Lexer.munches_items (.ofString s.name s.text) (Cursor.reaches_ofString hlen)
      (Lexer.mem_filterMap_token.mp ht)
  exact ⟨hmunches.spells.oneLine, congrArg Span.source hspan⟩

/-- So is what is wrong with the tokens, -/
theorem oneLine_read (hname : OneLine s.name) : ∀ d ∈ s.read.2, OneLine d.message := by
  intro d hd
  have hread := Script.readFrom_ofTokens _ d hd
  have hstop : (Reader.ofTokens s.scan.1).stop.span.source = s.name := by
    rw [s.scan_eq.2.1]
    rfl
  have hsource := hread.source_eq (fun t ht => (s.oneLine_tokens hlen t ht).2) hstop
  refine Diagnostic.oneLine_message (hsource ▸ hname) (fun name h => ?_) fun error loc heq => ?_
  · cases hread <;> cases h
  · subst heq
    exact hread.oneLine fun t ht => (s.oneLine_tokens hlen t ht).1

/-- and what is wrong with its tree. -/
theorem oneLine_found (hname : OneLine s.name) {ds : List Diagnostic}
    (h : s.read.1.check = .ok (.error ds)) : ∀ d ∈ ds, OneLine d.message := by
  intro d hd
  obtain ⟨hsemantic, hloc⟩ := Script.adds_of_check h d hd
  have hsource := (Script.joined_ofTokens s.scan.1 _ hloc).source_eq fun t ht =>
    (s.oneLine_tokens hlen t ht).2
  refine Diagnostic.oneLine_message (hsource ▸ hname) (fun name hn => ?_) fun error loc heq => ?_
  · -- The name is written in the tree, so it is the text of a token.
    rw [← (Script.found_of_check h).1] at hd
    have hword := (Script.trail_ofTokens s.scan.1).sublist.subset (Script.name_of_found hd hn)
    obtain ⟨t, ht, htname⟩ := List.mem_map.mp hword
    rw [← Token.lexeme_of_word htname]
    exact (s.oneLine_tokens hlen t ht).1
  · rw [heq] at hsemantic
    cases hsemantic

/-- The types that are written in the tree are one line each. -/
theorem oneLine_typeNames : ∀ a ∈ s.read.1.typeNames,
    OneLine a.name ∧ a.span.source = s.name := by
  obtain ⟨ts, hts, htypes⟩ := Script.typeNames_ofTokens s.scan.1
  intro a ha
  rw [read, htypes] at ha
  obtain ⟨t, ht, rfl⟩ := List.mem_map.mp ha
  exact s.oneLine_tokens hlen t (hts.subset ht)

end SourceText

/-- **Whatever is wrong with a script is said on one line**, if its name is one and its text has
fewer bytes than there are offsets. -/
theorem Analyzer.messages_oneLine (s : SourceText) (quiet : Bool)
    (hlen : s.text.utf8ByteSize < 2 ^ 32) (hname : OneLine s.name) :
    (∀ ds, (Analyzer.mk (some s) quiet).check = .ok (.error ds) → ∀ d ∈ ds, OneLine d.message) ∧
      ∀ m, (Analyzer.mk (some s) quiet).check = .error m → OneLine m.message := by
  refine ⟨fun ds h => ?_, fun m h => ?_⟩
  · rcases errors_or_read s quiet h with ⟨rfl, -⟩ | ⟨-, hcheck⟩
    · exact List.forall_mem_append.mpr ⟨s.oneLine_scan hname, s.oneLine_read hlen hname⟩
    · exact s.oneLine_found hlen hname hcheck
  · obtain ⟨a, ha, -, rfl⟩ := Script.misuse_of_check (errors_of_check s quiet h nofun).2
    obtain ⟨hline, hsource⟩ := s.oneLine_typeNames hlen a ha
    exact Misuse.oneLine_unknownType hline (hsource ▸ hname)

/-- A call of a name that is nothing, over more than one line. -/
def SourceText.spread : SourceText := ⟨"a b", "def f():Void is\ncall\n(\n);end"⟩

/-- The name is said and the line feeds around it are not. -/
theorem SourceText.spread_oneLine :
    spread.text.utf8ByteSize < 2 ^ 32 ∧ OneLine spread.name ∧
      OneLine (Diagnostic.noSuchSymbol "call" ⟨"a b", ⟨2, 1, 16⟩, ⟨4, 3, 25⟩⟩).message := by
  have hlen : spread.text.utf8ByteSize < 2 ^ 32 := by decide
  have hname : OneLine spread.name := by decide
  have hcheck : (Analyzer.mk (some spread) true).check = .ok (.error
      [.noSuchSymbol "call" ⟨"a b", ⟨2, 1, 16⟩, ⟨4, 3, 25⟩⟩]) := by
    cbv
  have hmessages := (Analyzer.messages_oneLine spread true hlen hname).1 _ hcheck
  exact ⟨hlen, hname, hmessages _ List.mem_cons_self⟩

/-! ### Behind the last offset -/

namespace SourceText

/-- A line feed and a procedure up to its `return`. -/
def opening : String := "\ndef f():Int32 is return"

/-- The number that is returned stands behind a line feed and `n` blanks. -/
def padded (n : Nat) : SourceText :=
  ⟨"a", opening ++ "\n" ++ .ofList (.replicate n ' ' ++ ['1'])⟩

/-- The tokens of that text if the number is taken for the first line feed. -/
def padded.taken : List Token :=
  [⟨.kwDef, "def", .none⟩, ⟨.identifier, "f", .none⟩, ⟨.leftParen, "(", .none⟩,
    ⟨.rightParen, ")", .none⟩, ⟨.colon, ":", .none⟩, ⟨.identifier, "Int32", .none⟩,
    ⟨.kwIs, "is", .none⟩, ⟨.kwReturn, "return", .none⟩, ⟨.intLiteral, "\n", .none⟩,
    .endOfInput .none]

variable {n : Nat}

/-- What stands in front of the number is read as it is, and the number from its two ends. -/
theorem exists_items_padded (n : Nat) : ∃ d e : Cursor,
    (Cursor.ofString "a" (padded n).text).Passes d (opening.toList ++ '\n' :: .replicate n ' ') ∧
      d.Passes e ['1'] ∧
      Lexer.items (.ofString "a" (padded n).text) = Lexer.items (.ofString "a" opening) ++
        [.token ⟨.intLiteral, e.sliceFrom d.pos, e.spanFrom d.pos⟩] := by
  have hopening : (Lexer.items (.ofString "a" opening)).filterMap Lexer.Item.problem? = [] := by
    cbv
  have hopen : ∀ loc, .fault .openComment loc ∉ Lexer.items (.ofString "a" opening) := by
    intro loc hloc
    have hproblem := Lexer.mem_filterMap_problem.mpr ⟨_, loc, hloc, rfl⟩
    rw [hopening] at hproblem
    cases hproblem
  obtain ⟨c, hc, hrest, hitems⟩ :=
    Lexer.items_above (b := .ofList (.replicate n ' ' ++ ['1'])) (by decide) hopen
  rw [String.toList_ofList] at hrest
  have hgap : ∀ x ∈ '\n' :: .replicate n ' ', Text.isBlank x = true := by
    refine List.forall_mem_cons.mpr ⟨by decide, fun x hx => ?_⟩
    rw [List.eq_of_mem_replicate hx]
    decide
  obtain ⟨d, hd, hblanks⟩ := Lexer.items_blanks hgap hrest
  have hnumber : d.rest = "1".toList ++ [] := List.append_cancel_left (hd.rest.symm.trans hrest)
  obtain ⟨e, he, hread⟩ := Lexer.read_digits (s := "1") (by decide) (by simp) hnumber
    (by simp [Lexer.Gap])
  have hend : e.rest = [] := List.append_cancel_left (he.rest.symm.trans hnumber)
  refine ⟨d, e, hc.trans hd, he, hitems.trans ?_⟩
  rw [hblanks, Lexer.items_of_read hread, Lexer.items_of_nil hend]

theorem utf8Len_padding (n : Nat) :
    utf8Len (opening.toList ++ '\n' :: .replicate n ' ') = 25 + n := by
  have hopening : utf8Len opening.toList = 24 := by decide
  have hfeed : '\n'.utf8Size = 1 := rfl
  have hspace : ' '.utf8Size = 1 := rfl
  rw [String.utf8Len_append, String.utf8Len_cons, utf8Len_replicate, hopening, hfeed, hspace]
  omega

/-- Where the offset of the number is 0 again, its text is the first character of the whole. -/
theorem items_padded (hwrap : (25 + n) % 2 ^ 32 = 0) : ∃ loc,
    Lexer.items (.ofString "a" (padded n).text) = Lexer.items (.ofString "a" opening) ++
      [.token ⟨.intLiteral, "\n", loc⟩] := by
  obtain ⟨d, e, hd, he, hitems⟩ := exists_items_padded n
  have hstart : d.pos.offset.toNat = 0 := by
    rw [hd.offset_mod, utf8Len_padding, hwrap]
  have hstop : e.pos.offset.toNat = 1 := by
    have hone : utf8Len ['1'] = 1 := rfl
    rw [(hd.trans he).offset_mod, String.utf8Len_append, utf8Len_padding, hone]
    omega
  have hslice : e.sliceFrom d.pos = "\n" := by
    rw [Cursor.sliceFrom, hstart, hstop, (hd.trans he).text]
    exact (congrArg (Text.slice · 0 1) (Lexer.toList_seam _ _)).trans (Text.slice_eq [] ['\n'] _)
  exact ⟨e.spanFrom d.pos, hslice ▸ hitems⟩

/-- A literal whose text is a line feed is reported. -/
theorem outOfRange_padded (hwrap : (25 + n) % 2 ^ 32 = 0) :
    ∃ loc, .syntaxError (.outOfRange "\n") loc ∈ (padded n).errors := by
  obtain ⟨loc, hitems⟩ := items_padded hwrap
  have hopening : ((Lexer.items (.ofString "a" opening)).filterMap Lexer.Item.token?).map
      (Token.relabel .unplaced) = padded.taken.take 8 := by
    cbv
  have htokens : (padded n).scan.1.map (Token.relabel .unplaced) =
      padded.taken.map (Token.relabel .unplaced) := by
    rw [scan, Token.scan_end, List.map_append]
    show ((Lexer.items (.ofString "a" (padded n).text)).filterMap _).map _ ++ _ = _
    rw [hitems, List.filterMap_append, List.map_append, hopening]
    rfl
  have hfound : (Script.ofTokens padded.taken).2 = [.syntaxError (.outOfRange "\n") .none,
      .syntaxError (.expected (.token .semicolon) .eof) .none,
      .syntaxError (.expected (.token .kwEnd) .eof) .none] := by
    cbv
  have hread := (Script.ofTokens_unplaced htokens).2
  rw [hfound] at hread
  obtain ⟨d, ds, hd, hplaced, -⟩ := List.map_eq_cons_iff.mp hread
  have hmem : d ∈ (padded n).errors := by
    refine List.mem_append_right _ ?_
    rw [read, hd]
    exact List.mem_cons_self
  -- Only the place of what is reported is open.
  cases d with
  | syntaxError error place =>
      obtain ⟨rfl, -⟩ := Diagnostic.syntaxError.inj hplaced
      exact ⟨place, hmem⟩
  | dupSymbol | noSuchSymbol | typeMismatch | argCountMismatch | returnCountMismatch
  | unreachable => cases hplaced

/-- **Behind 2³² bytes a message may be more than one line**: a number there is taken for the first
line feed of the text, and reported. -/
theorem padded_not_oneLine : OneLine (padded (2 ^ 32 - 25)).name ∧
    ∃ ds, (Analyzer.mk (some (padded (2 ^ 32 - 25))) true).check = .ok (.error ds) ∧
      ∃ d ∈ ds, ¬ OneLine d.message := by
  obtain ⟨loc, hmem⟩ := outOfRange_padded (n := 2 ^ 32 - 25) (by decide)
  have hname : OneLine "a" := by decide
  refine ⟨hname, _, Analyzer.check_of_errors _ true (List.ne_nil_of_mem hmem), _, hmem, fun h => ?_⟩
  have hmessage : OneLine (_ ++ _ ++ _ ++ (SyntaxError.outOfRange "\n").message) := h
  exact absurd (oneLine_append.mp hmessage).2 (by decide)

end SourceText

end ProcScript
