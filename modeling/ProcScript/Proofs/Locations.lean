import ProcScript.Proofs.Stages
import ProcScript.Proofs.Syntax.Independence

/-!
# Locations

**Every location that is reported is a genuine place in the text** (`Analyzer.located`).  The
lexer makes spans of one character at least, each a stretch of the text (`Span.Covers`); what
joins two such spans is one again, so all spans of a tree are (`Span.Joins.covers`), whichever
reading made them, and a check copies its places from the tree.  The one span without characters
is that of the `eof`, and only a reader of tokens points there.
-/

namespace ProcScript

open String (utf8Len)

/-! ### Stretches of a text -/

namespace Span

/-- The span is that of characters of the text, one at least. -/
def Covers (script : String) (text : List Char) (s : Span) : Prop :=
  ∃ before cs, cs ≠ [] ∧ before ++ cs <+: text ∧ s = stretch script before cs

/-- The span behind all characters of the text, without one of its own. -/
def atEnd (script : String) (text : List Char) : Span := stretch script text []

variable {script : String} {text : List Char} {a b s : Span}

/-- From the earlier start to the later end there are the characters of both. -/
theorem Covers.merge (hlen : utf8Len text < 2 ^ 32) (ha : a.Covers script text)
    (hb : b.Covers script text) : (a.merge b).Covers script text := by
  obtain ⟨front, cs, hcs, hpre, rfl⟩ := ha
  obtain ⟨front', cs', -, hpre', rfl⟩ := hb
  have hfront : front <+: text := (List.prefix_append front cs).trans hpre
  have hfront' : front' <+: text := (List.prefix_append front' cs').trans hpre'
  have hoffset {ds : List Char} (hds : ds <+: text) :
      (Position.after ds).offset.toNat = utf8Len ds :=
    Position.offset_after (Nat.lt_of_le_of_lt (String.utf8Len_le_of_prefix hds) hlen)
  obtain ⟨before, ⟨ds, hds⟩, hle, hstart⟩ : ∃ before, before <+: text ∧
      utf8Len before ≤ utf8Len front ∧
      ((stretch script front cs).merge (stretch script front' cs')).start = .after before := by
    by_cases h : (Position.after front).offset ≤ (Position.after front').offset
    · exact ⟨front, hfront, Nat.le_refl _, if_pos h⟩
    · refine ⟨front', hfront', ?_, if_neg h⟩
      rw [UInt32.le_iff_toNat_le, hoffset hfront, hoffset hfront'] at h
      omega
  obtain ⟨whole, hwhole, hge, hstop⟩ : ∃ whole, whole <+: text ∧
      utf8Len (front ++ cs) ≤ utf8Len whole ∧
      ((stretch script front cs).merge (stretch script front' cs')).stop = .after whole := by
    by_cases h : (Position.after (front' ++ cs')).offset ≤ (Position.after (front ++ cs)).offset
    · exact ⟨front ++ cs, hpre, Nat.le_refl _, if_pos h⟩
    · refine ⟨front' ++ cs', hpre', ?_, if_neg h⟩
      rw [UInt32.le_iff_toNat_le, hoffset hpre, hoffset hpre'] at h
      omega
  have hpos := utf8Len_pos hcs
  rw [String.utf8Len_append] at hge
  obtain ⟨es, hes⟩ := hwhole
  obtain ⟨inner, rfl, -⟩ := exists_append_of_utf8Len_le (hds.trans hes.symm) (by omega)
  refine ⟨before, inner, ?_, ⟨es, hes⟩, ?_⟩
  · rintro rfl
    rw [List.append_nil] at hge
    omega
  · calc (stretch script front cs).merge (stretch script front' cs')
      _ = ⟨script, ((stretch script front cs).merge (stretch script front' cs')).start,
            ((stretch script front cs).merge (stretch script front' cs')).stop⟩ := rfl
      _ = stretch script before inner := by rw [hstart, hstop, stretch]

/-- What joins spans of tokens covers characters, if the tokens do. -/
theorem Joins.covers {ts : List Token} (hlen : utf8Len text < 2 ^ 32)
    (hts : ∀ t ∈ ts, t.span.Covers script text) (h : Joins ts s) : s.Covers script text := by
  induction h with
  | token ht => exact hts _ ht
  | merge _ _ iha ihb => exact iha.merge hlen ihb

end Span

/-! ### Places by their counters -/

/-- The place is one between two characters of the text, or at an end of it, by all of its
counters. -/
def Position.In (text : String) (p : Position) : Prop := ∃ cs, cs <+: text.toList ∧ p.Behind cs

/-- The span is from a place in the text to one that is not before it. -/
structure Span.Genuine (script text : String) (s : Span) : Prop where
  source : s.source = script
  start : s.start.In text
  stop : s.stop.In text
  ordered : s.lo ≤ s.hi
  inside : s.hi ≤ text.utf8ByteSize

/-- There are bytes to point at, and they are bytes of the text. -/
def Span.PointsInto (text : String) (s : Span) : Prop :=
  s.byteRange.1 < s.byteRange.2 ∧ s.byteRange.2 ≤ text.utf8ByteSize

namespace Span

variable {script text : String} {before cs : List Char} {s : Span}

theorem genuine_stretch (hlen : text.utf8ByteSize < 2 ^ 32 - 1)
    (hpre : before ++ cs <+: text.toList) : (stretch script before cs).Genuine script text := by
  have hcut := String.utf8Len_le_of_prefix hpre
  rw [String.utf8Len_toList] at hcut
  have hbefore : utf8Len before ≤ utf8Len (before ++ cs) :=
    String.utf8Len_le_of_prefix (List.prefix_append before cs)
  refine ⟨rfl, ⟨before, (List.prefix_append before cs).trans hpre, ?_⟩, ⟨_, hpre, ?_⟩, ?_, ?_⟩
  · exact Position.behind_after (by omega)
  · exact Position.behind_after (by omega)
  · rwa [lo_stretch (by omega), hi_stretch (by omega)]
  · rwa [hi_stretch (by omega)]

variable (hlen : text.utf8ByteSize < 2 ^ 32 - 1)
include hlen

theorem genuine_atEnd (script : String) : (atEnd script text.toList).Genuine script text :=
  genuine_stretch hlen (by rw [List.append_nil])

/-- Behind the last byte there is one to point at, which the text has not. -/
theorem byteRange_atEnd (script : String) :
    (atEnd script text.toList).byteRange = (text.utf8ByteSize, text.utf8ByteSize + 1) := by
  have hoffset : (Position.after text.toList).offset.toNat = text.utf8ByteSize := by
    rw [Position.offset_after (by rw [String.utf8Len_toList]; omega), String.utf8Len_toList]
  rw [byteRange, atEnd, stretch, List.append_nil, hoffset, Nat.max_eq_right (Nat.le_succ _)]

theorem Covers.genuine (h : s.Covers script text.toList) : s.Genuine script text := by
  obtain ⟨before, cs, -, hpre, rfl⟩ := h
  exact genuine_stretch hlen hpre

theorem Covers.lo_lt_hi (h : s.Covers script text.toList) : s.lo < s.hi := by
  obtain ⟨before, cs, hcs, hpre, rfl⟩ := h
  have hcut := String.utf8Len_le_of_prefix hpre
  have hpos := utf8Len_pos hcs
  rw [String.utf8Len_toList] at hcut
  rw [lo_stretch (by omega), hi_stretch (by omega), String.utf8Len_append]
  omega

theorem Covers.pointsInto (h : s.Covers script text.toList) : s.PointsInto text := by
  have hlt : s.start.offset.toNat < s.stop.offset.toNat := h.lo_lt_hi hlen
  have hinside : s.stop.offset.toNat ≤ text.utf8ByteSize := (h.genuine hlen).inside
  rw [PointsInto, byteRange]
  omega

/-- The end has no characters. -/
theorem Covers.ne_atEnd (h : s.Covers script text.toList) : s ≠ atEnd script text.toList := by
  rintro rfl
  have hlt := h.lo_lt_hi hlen
  rw [lo, hi, atEnd, stretch, List.append_nil] at hlt
  exact Nat.lt_irrefl _ hlt

end Span

/-! ### From the text to its tree -/

/-- The items cover characters. -/
theorem Lexer.Tiled.covers {script : String} {before rest : List Char} {is : List Lexer.Item}
    (h : Lexer.Tiled script before rest is) :
    ∀ i ∈ is, i.span.Covers script (before ++ rest) := by
  induction h with
  | done => exact List.forall_mem_nil _
  | trivium h more ih => rwa [← List.append_assoc]
  | @item before cs rest i is hcs h more ih =>
      rw [← List.append_assoc, List.forall_mem_cons]
      exact ⟨⟨before, cs, hcs, List.prefix_append _ _, h.span_eq⟩, ih⟩

/-- Tokens and faults cover characters; the `eof` is behind all of them. -/
theorem Token.covers_scan (script text : String) :
    ∃ ts, (Token.scan script text).1 = ts ++ [Token.endOfInput (.atEnd script text.toList)] ∧
      (∀ t ∈ ts, t.kind ≠ .eof ∧ t.span.Covers script text.toList) ∧
      ∀ d ∈ (Token.scan script text).2, d.loc.Covers script text.toList := by
  have htiled : Lexer.Tiled script [] text.toList (Lexer.items (.ofString script text)) :=
    Lexer.tiled_items (.ofString script text) rfl
  refine ⟨_, scan_end script text, ?_, ?_⟩
  · intro t ht
    have hi := Lexer.mem_filterMap_token.mp ht
    obtain ⟨_, _, _, _, hkind, -⟩ := htiled.madeOf _ hi
    exact ⟨hkind, htiled.covers _ hi⟩
  · intro d hd
    obtain ⟨e, loc, hi, rfl⟩ := Lexer.mem_filterMap_problem.mp hd
    exact htiled.covers _ hi

theorem Reader.ofTokens_ended {ts : List Token} (span : Span) (h : ∀ t ∈ ts, t.kind ≠ .eof) :
    (ofTokens (ts ++ [Token.endOfInput span])).rest = ts ∧
      (ofTokens (ts ++ [Token.endOfInput span])).stop = .endOfInput span := by
  rw [ofTokens_prepend h (List.cons_ne_nil _ _)]
  exact ⟨List.append_nil ts, rfl⟩

/-- Where what is reported may point: at characters, or a syntax error at the end of the text. -/
def Diagnostic.PointsAt (script text : String) (d : Diagnostic) : Prop :=
  d.loc.Covers script text.toList ∨
    d.isSyntaxError = true ∧ d.loc = .atEnd script text.toList

/-- What a reading of tokens reports points at characters that they cover, or at their end. -/
theorem Diagnostic.ReadFrom.pointsAt {script text : String} {r₀ : Reader} {d : Diagnostic}
    (hlen : utf8Len text.toList < 2 ^ 32)
    (hrest : ∀ t ∈ r₀.rest, t.span.Covers script text.toList)
    (hstop : r₀.stop.span = .atEnd script text.toList) (h : d.ReadFrom r₀) :
    d.PointsAt script text := by
  cases h with
  | expected what h =>
      rcases h with h | rfl
      · exact .inl (hrest _ h)
      · exact .inr ⟨rfl, hstop⟩
  | outOfRange h => exact .inl (hrest _ h)
  | callAsValue h h' => exact .inl ((hrest _ h).merge hlen (hrest _ h'))

namespace SourceText

variable (s : SourceText) (hlen : utf8Len s.text.toList < 2 ^ 32)
include hlen

/-- The places of the tree of a text cover characters, and so does what is wrong with the text, the
end apart. -/
theorem covers_read :
    (∀ x ∈ s.read.1.spans, x.Covers s.name s.text.toList) ∧
      ∀ d ∈ s.read.2, d.PointsAt s.name s.text := by
  obtain ⟨ts, hscan, hts, -⟩ := Token.covers_scan s.name s.text
  obtain ⟨hrest, hstop⟩ := Reader.ofTokens_ended (.atEnd s.name s.text.toList)
    fun t ht => (hts t ht).1
  rw [← hscan] at hrest hstop
  have hcovers : ∀ t ∈ (Reader.ofTokens s.scan.1).rest, t.span.Covers s.name s.text.toList := by
    rw [SourceText.scan, hrest]
    exact fun t ht => (hts t ht).2
  constructor
  · exact fun x hx => (Script.joined_ofTokens _ x hx).covers hlen hcovers
  · exact fun d hd => (Script.readFrom_ofTokens _ d hd).pointsAt hlen hcovers
      (congrArg Token.span hstop)

end SourceText

/-! ### The locations of an answer -/

/-- It is a syntax error where the `eof` of the tokens stands. -/
def Diagnostic.AtEof (tokens : List Token) (d : Diagnostic) : Prop :=
  d.isSyntaxError = true ∧ ∃ t ∈ tokens, t.kind = .eof ∧ d.loc = t.span

/-- The `eof` of a text stands at its end. -/
theorem SourceText.atEof_iff (s : SourceText) (d : Diagnostic) :
    d.AtEof s.scan.1 ↔ d.isSyntaxError = true ∧ d.loc = .atEnd s.name s.text.toList := by
  obtain ⟨ts, hscan, hts, -⟩ := Token.covers_scan s.name s.text
  rw [Diagnostic.AtEof, scan, hscan]
  refine and_congr_right fun _ => ?_
  constructor
  · rintro ⟨t, ht, hk, hloc⟩
    rcases List.mem_append.mp ht with ht | ht
    · exact absurd hk (hts t ht).1
    · obtain rfl := List.mem_singleton.mp ht
      exact hloc
  · intro hloc
    exact ⟨_, List.mem_append_right ts (.head _), rfl, hloc⟩

namespace Analyzer

variable (s : SourceText) (quiet : Bool)

theorem covers_misuse (hlen : utf8Len s.text.toList < 2 ^ 32) {name : String} {loc : Span}
    (h : (Analyzer.mk (some s) quiet).check = .error (.unknownType name loc)) :
    loc.Covers s.name s.text.toList := by
  obtain ⟨t, ht, -, heq⟩ := Script.misuse_of_check (errors_of_check s quiet h nofun).2
  obtain ⟨-, rfl⟩ := Misuse.unknownType.inj heq
  exact (s.covers_read hlen).1 _ (Script.span_mem_spans ht)

theorem pointsAt_of_check (hlen : utf8Len s.text.toList < 2 ^ 32) {ds : List Diagnostic}
    (h : (Analyzer.mk (some s) quiet).check = .ok (.error ds)) :
    ∀ d ∈ ds, d.PointsAt s.name s.text := by
  obtain ⟨ts, -, -, hfaults⟩ := Token.covers_scan s.name s.text
  obtain ⟨hspans, hproblems⟩ := s.covers_read hlen
  rcases errors_or_read s quiet h with ⟨rfl, -⟩ | ⟨-, hcheck⟩
  · rw [SourceText.errors, List.forall_mem_append]
    exact ⟨fun d hd => .inl (hfaults d hd), hproblems⟩
  · exact fun d hd => .inl (hspans _ (Script.adds_of_check hcheck d hd).2)

/-- **Every location that is reported is a genuine place in the text.**  There are bytes of the text
to point at, but for a syntax error at the `eof`, which points at the byte behind the last one. -/
theorem located (hlen : s.text.utf8ByteSize < 2 ^ 32 - 1) :
    (∀ name loc, (Analyzer.mk (some s) quiet).check = .error (.unknownType name loc) →
      loc.Genuine s.name s.text ∧ loc.PointsInto s.text) ∧
    ∀ ds, (Analyzer.mk (some s) quiet).check = .ok (.error ds) → ∀ d ∈ ds,
      d.loc.Genuine s.name s.text ∧
        (¬ d.AtEof s.scan.1 → d.loc.PointsInto s.text) ∧
        (d.AtEof s.scan.1 →
          d.loc.byteRange = (s.text.utf8ByteSize, s.text.utf8ByteSize + 1)) := by
  have hwords : utf8Len s.text.toList < 2 ^ 32 := by
    rw [String.utf8Len_toList]
    omega
  refine ⟨fun name loc h => ?_, fun ds h d hd => ?_⟩
  · have hcovers := covers_misuse s quiet hwords h
    exact ⟨hcovers.genuine hlen, hcovers.pointsInto hlen⟩
  · rw [s.atEof_iff d]
    rcases pointsAt_of_check s quiet hwords h d hd with hcovers | hend
    · exact ⟨hcovers.genuine hlen, fun _ => hcovers.pointsInto hlen,
        fun hend => absurd hend.2 (hcovers.ne_atEnd hlen)⟩
    · rw [hend.2]
      exact ⟨Span.genuine_atEnd hlen s.name, fun h => absurd ⟨hend.1, rfl⟩ h,
        fun _ => Span.byteRange_atEnd hlen s.name⟩

end Analyzer

/-- A letter that starts no token, on a line of its own, and a procedure that is cut short. -/
def SourceText.cutShort : SourceText := ⟨"a", "é\ndef f():Void is"⟩

/-- The letter is two bytes wide, and the `end` is missed behind the last byte. -/
theorem SourceText.cutShort_located :
    cutShort.text.utf8ByteSize < 2 ^ 32 - 1 ∧
      (Span.Genuine "a" cutShort.text ⟨"a", ⟨1, 1, 0⟩, ⟨1, 2, 2⟩⟩ ∧
        Span.PointsInto cutShort.text ⟨"a", ⟨1, 1, 0⟩, ⟨1, 2, 2⟩⟩) ∧
      Span.Genuine "a" cutShort.text ⟨"a", ⟨2, 16, 18⟩, ⟨2, 16, 18⟩⟩ ∧
      Span.byteRange ⟨"a", ⟨2, 16, 18⟩, ⟨2, 16, 18⟩⟩ = (18, 19) := by
  have hsize : cutShort.text.utf8ByteSize < 2 ^ 32 - 1 := by decide
  have hcheck : (Analyzer.mk (some cutShort) true).check = .ok (.error
      [.syntaxError (.unexpectedChar 'é') ⟨"a", ⟨1, 1, 0⟩, ⟨1, 2, 2⟩⟩,
        .syntaxError (.expected (.token .kwEnd) .eof) ⟨"a", ⟨2, 16, 18⟩, ⟨2, 16, 18⟩⟩]) := by
    cbv
  have hend : Span.atEnd "a" cutShort.text.toList = ⟨"a", ⟨2, 16, 18⟩, ⟨2, 16, 18⟩⟩ := by decide
  have heof (d : Diagnostic) : d.AtEof cutShort.scan.1 ↔
      d.isSyntaxError = true ∧ d.loc = ⟨"a", ⟨2, 16, 18⟩, ⟨2, 16, 18⟩⟩ := by
    rw [cutShort.atEof_iff, ← hend]
    rfl
  have hds := (Analyzer.located cutShort true hsize).2 _ hcheck
  obtain ⟨hletter, hinto, -⟩ := hds _ (.head _)
  obtain ⟨hmissed, -, hrange⟩ := hds _ (.tail _ (.head _))
  exact ⟨hsize, ⟨hletter, hinto fun h => absurd ((heof _).mp h).2 (by decide)⟩, hmissed,
    hrange ((heof _).mpr ⟨rfl, rfl⟩)⟩

end ProcScript
