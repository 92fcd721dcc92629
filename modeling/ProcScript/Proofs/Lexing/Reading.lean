import ProcScript.Proofs.Lexing.Passage
import ProcScript.Token.Lexer

/-!
# Lexing — what one reading passes

A reading passes one blank or one comment (`Lexer.Trivium`), the text of one token, or what is
at fault (`SyntaxError.Faults`), and nothing else (`Lexer.passed_read`).  What follows matters
twice: a `//` comment ends where the line ends, and a `=` or a `!` is at fault if no `=`
follows.  A `/*` comment ends with the first `*/` behind it; without one it is at fault, and
then nothing follows.
-/

namespace ProcScript

namespace Lexer

/-- One blank or one comment, and what follows it. -/
inductive Trivium : List Char → List Char → Prop
  | blank {x : Char} {after : List Char} (h : Text.isBlank x = true) : Trivium [x] after
  | line {body after : List Char} (h : ∀ x ∈ body, x ≠ '\n') (hend : ∀ x ∈ after.head?, x = '\n') :
      Trivium ('/' :: '/' :: body) after
  | block {body after : List Char} (h : ¬ ['*', '/'] <:+: body) :
      Trivium ('/' :: '*' :: (body ++ ['*', '/'])) after

/-- The characters of which tokens are made. -/
def inAlphabet (x : Char) : Bool :=
  isWordChar x || x ∈ ['(', ')', ',', ';', '+', '-', '*', '/', ':', '<', '>', '=', '!']

end Lexer

/-- The characters, and what follows them, are at fault in this way. -/
def SyntaxError.Faults (cs after : List Char) : SyntaxError → Prop
  | .loneEquals       => cs = ['='] ∧ after.head? ≠ some '='
  | .loneBang         => cs = ['!'] ∧ after.head? ≠ some '='
  | .unexpectedChar x => cs = [x] ∧ Text.isBlank x = false ∧ Lexer.inAlphabet x = false
  | .openComment      =>
      ∃ body, cs = '/' :: '*' :: body ∧ after = [] ∧ ¬ ['*', '/'] <:+: body
  | .expected _ _ | .outOfRange _ | .callAsValue _ | .stated _ => False

namespace Lexer

/-- What the characters `cs` between `c` and `d` are read as. -/
inductive ReadsAs (c d : Cursor) (cs : List Char) : Option Item → Prop
  | trivium (h : Trivium cs d.rest) : ReadsAs c d cs none
  | token {k : Kind} (h : k ≠ .eof) (hcs : cs ≠ []) :
      ReadsAs c d cs (some (.token ⟨k, d.sliceFrom c.pos, ⟨c.script, c.pos, d.pos⟩⟩))
  | fault {e : SyntaxError} (h : e.Faults cs d.rest) :
      ReadsAs c d cs (some (.fault e ⟨c.script, c.pos, d.pos⟩))

/-- A reading passes characters and reads them as what they are. -/
def Passed (c : Cursor) (r : Option Item × Cursor) : Prop :=
  ∃ cs, c.Passes r.2 cs ∧ ReadsAs c r.2 cs r.1

variable {c d : Cursor} {cs : List Char} {x : Char} {k : Kind} {e : SyntaxError}

theorem passed_emit (h : c.Passes d cs) (hk : k ≠ .eof) (hcs : cs ≠ []) :
    Passed c (emit k c d) := by
  refine ⟨cs, h, ?_⟩
  rw [emit, Cursor.spanFrom, h.script]
  exact .token hk hcs

theorem passed_reject (h : c.Passes d cs) (he : e.Faults cs d.rest) :
    Passed c (reject e c d) := by
  refine ⟨cs, h, ?_⟩
  rw [reject, Cursor.spanFrom, h.script]
  exact .fault he

theorem passes_eat? {s : Cursor} (h : d.eat? x = some s) : d.Passes s [x] := by
  rw [Cursor.eat?] at h
  split at h
  · rename_i hx
    obtain rfl := Option.some.inj h
    obtain ⟨ds, hd⟩ := List.head?_eq_some_iff.mp hx
    exact .advance hd
  · cases h

theorem head?_of_eat?_eq_none (h : d.eat? x = none) : d.rest.head? ≠ some x := by
  intro hx
  rw [Cursor.eat?, Cursor.peek?, if_pos hx] at h
  cases h

theorem passed_emitEquals {one two : Kind} (h : c.Passes d cs) (hcs : cs ≠ [])
    (hone : one ≠ .eof) (htwo : two ≠ .eof) :
    Passed c (emitEquals one two c d) := by
  rw [emitEquals]
  split
  · exact passed_emit (h.trans (passes_eat? ‹_›)) htwo (by simp)
  · exact passed_emit h hone hcs

theorem passed_needEquals {two : Kind} (h : c.Passes d cs)
    (he : d.rest.head? ≠ some '=' → e.Faults cs d.rest) (htwo : two ≠ .eof) :
    Passed c (needEquals e two c d) := by
  rw [needEquals]
  split
  · exact passed_emit (h.trans (passes_eat? ‹_›)) htwo (by simp)
  · exact passed_reject h (he (head?_of_eat?_eq_none ‹_›))

/-! ### Comments -/

theorem not_infix_cons {body : List Char} (hx : ¬ (x = '*' ∧ body.head? = some '/'))
    (h : ¬ ['*', '/'] <:+: body) : ¬ ['*', '/'] <:+: x :: body := by
  rw [List.infix_cons_iff]
  rintro (hp | hi)
  · obtain ⟨hx', hp⟩ := List.cons_prefix_cons.mp hp
    obtain ⟨ds, hbody⟩ := hp
    exact hx ⟨hx'.symm, by rw [← hbody]; rfl⟩
  · exact h hi

/-- A comment is closed by the first `*/`, and one that is not closed passes everything. -/
theorem passes_closeComment (c : Cursor) :
    ((closeComment c).1 = true →
        ∃ body, c.Passes (closeComment c).2 (body ++ ['*', '/']) ∧ ¬ ['*', '/'] <:+: body) ∧
      ((closeComment c).1 = false →
        c.Passes (closeComment c).2 c.rest ∧ (closeComment c).2.rest = [] ∧
          ¬ ['*', '/'] <:+: c.rest) := by
  fun_induction closeComment c with
  | case1 c h =>
      refine ⟨fun hclosed => absurd hclosed Bool.false_ne_true, fun _ => ⟨?_, h, by simp [h]⟩⟩
      rw [h]
      exact .refl c
  | case2 c x xs h hx =>
      refine ⟨fun _ => ⟨[], ?_, by simp⟩, fun hopen => absurd hopen Bool.false_ne_true.symm⟩
      obtain ⟨rfl, hslash⟩ := hx
      rw [Cursor.peekSecond?, h, List.tail_cons] at hslash
      obtain ⟨ds, rfl⟩ := List.head?_eq_some_iff.mp hslash
      have hnext : c.advance.rest = '/' :: ds := by rw [Cursor.advance_rest, h, List.tail_cons]
      exact (Cursor.Passes.advance h).trans (.advance hnext)
  | case3 c x xs h hx ih =>
      have hnext : c.advance.rest = xs := by rw [Cursor.advance_rest, h, List.tail_cons]
      rw [Cursor.peekSecond?, h, List.tail_cons] at hx
      have hone := Cursor.Passes.advance h
      obtain ⟨hclosed, hopen⟩ := ih
      constructor
      · intro ht
        obtain ⟨body, hp, hbody⟩ := hclosed ht
        refine ⟨x :: body, hone.trans hp, not_infix_cons ?_ hbody⟩
        rintro ⟨rfl, hslash⟩
        obtain ⟨ds, rfl⟩ := List.head?_eq_some_iff.mp hslash
        exact hx ⟨rfl, by rw [← hnext, hp.rest]; rfl⟩
      · intro hf
        obtain ⟨hp, hend, hbody⟩ := hopen hf
        rw [hnext] at hp hbody
        rw [h]
        exact ⟨hone.trans hp, hend, not_infix_cons hx hbody⟩

theorem passed_readSlash (h : c.Passes d ['/']) : Passed c (readSlash c d) := by
  rw [readSlash]
  split
  · rename_i body hb
    -- A `//` comment runs up to the next line feed or to the end.
    refine ⟨_, (h.trans (passes_eat? hb)).trans (.eatWhile (· ≠ '\n') body), .trivium ?_⟩
    refine .line ?_ ?_
    · intro x hx
      simpa using List.all_eq_true.mp List.all_takeWhile x hx
    · intro x hx
      rw [Cursor.rest_eatWhile] at hx
      have hstop := List.head?_dropWhile_not (· ≠ '\n') body.rest
      rw [hx] at hstop
      simpa using hstop
  · split
    · rename_i body hb
      have hstart := h.trans (passes_eat? hb)
      obtain ⟨hclosed, hopen⟩ := passes_closeComment body
      split
      · rename_i stop hc
        obtain ⟨cs, hp, hcs⟩ := hclosed (by rw [hc])
        rw [hc] at hp
        exact ⟨_, hstart.trans hp, .trivium (.block hcs)⟩
      · rename_i stop hc
        obtain ⟨hp, hend, hcs⟩ := hopen (by rw [hc])
        rw [hc] at hp hend
        exact passed_reject (hstart.trans hp) ⟨_, rfl, hend, hcs⟩
    · exact passed_emit h (by decide) (by simp)

/-! ### One reading -/

theorem passed_readSymbol (h : c.Passes d [x]) (hblank : Text.isBlank x = false)
    (hword : isWordChar x = false) : Passed c (readSymbol x c d) := by
  unfold readSymbol
  split
  case h_8 => exact passed_readSlash h
  case h_9 | h_10 | h_11 => exact passed_emitEquals h (by simp) (by decide) (by decide)
  case h_12 => exact passed_needEquals h (fun hnext => ⟨rfl, hnext⟩) (by decide)
  case h_13 => exact passed_needEquals h (fun hnext => ⟨rfl, hnext⟩) (by decide)
  case h_14 =>
    refine passed_reject h ⟨rfl, hblank, ?_⟩
    simp_all [inAlphabet]
  all_goals exact passed_emit h (by decide) (by simp)

theorem keyword_ne_eof (s : String) : (Kind.keyword? s).getD .identifier ≠ .eof := by
  cases hk : Kind.keyword? s with
  | none => decide
  | some k =>
      rintro rfl
      exact absurd (Kind.keyword?_eq_some_iff.mp hk).1 (by decide)

/-- **One reading passes a blank, a comment, a token or a fault.** -/
theorem passed_read (h : c.rest ≠ []) : Passed c (read c) := by
  obtain ⟨x, xs, hc⟩ := List.exists_cons_of_ne_nil h
  have hone := Cursor.Passes.advance hc
  simp only [read, hc]
  by_cases hblank : Text.isBlank x = true
  · rw [if_pos hblank]
    exact ⟨[x], hone, .trivium (.blank hblank)⟩
  · rw [if_neg hblank]
    split
    · exact passed_emit (hone.trans (.eatWhile isWordChar _)) (keyword_ne_eof _) (by simp)
    · split
      · exact passed_emit (hone.trans (.eatWhile Char.isDigit _)) (by decide) (by simp)
      · refine passed_readSymbol hone (by simpa using hblank) ?_
        simp_all [isWordStart, isWordChar, Char.isAlphanum]

end Lexer

end ProcScript
