import ProcScript.Cursor
import ProcScript.Diagnostic
import ProcScript.Text.Blank

/-!
# ProcScript — Token — Lexer

A text as tokens.  One reading (`Lexer.read`) starts at a character and passes over a blank, a
comment, a token or a fault, the longest that starts there; it always moves on
(`Lexer.length_read_lt`), so readings follow one another to the end of the text.  `//` comments
run to the end of the line and `/*` comments to the next `*/`, without nesting.  A fault is
passed over and reported, and the reading goes on behind it.
-/

namespace ProcScript

namespace Lexer

/-- What a text is made of, blanks and comments apart. -/
inductive Item where
  | token (token : Token)
  | fault (error : SyntaxError) (loc : Span)

/-- The token, if it is one. -/
def Item.token? : Item → Option Token
  | .token t   => some t
  | .fault _ _ => none

/-- What is reported, if it is a fault. -/
def Item.problem? : Item → Option Diagnostic
  | .token _         => none
  | .fault error loc => some (.syntaxError error loc)

/-- A letter of ASCII, or `_`. -/
def isWordStart (c : Char) : Bool := c.isAlpha || c == '_'

/-- A letter or digit of ASCII, or `_`. -/
def isWordChar (c : Char) : Bool := c.isAlphanum || c == '_'

/-- The token between two places. -/
def emit (kind : Kind) (start stop : Cursor) : Option Item × Cursor :=
  (some (.token ⟨kind, stop.sliceFrom start.pos, stop.spanFrom start.pos⟩), stop)

/-- The fault between two places. -/
def reject (error : SyntaxError) (start stop : Cursor) : Option Item × Cursor :=
  (some (.fault error (stop.spanFrom start.pos)), stop)

/-- The keyword or identifier between two places. -/
def emitWord (start stop : Cursor) : Option Item × Cursor :=
  emit ((Kind.keyword? (stop.sliceFrom start.pos)).getD .identifier) start stop

/-- `one` up to `next`, or `two` if a `=` follows. -/
def emitEquals (one two : Kind) (start next : Cursor) : Option Item × Cursor :=
  match next.eat? '=' with
  | some stop => emit two start stop
  | none      => emit one start next

/-- `two` if a `=` follows `next`, else a fault. -/
def needEquals (error : SyntaxError) (two : Kind) (start next : Cursor) : Option Item × Cursor :=
  match next.eat? '=' with
  | some stop => emit two start stop
  | none      => reject error start next

/-- Over the next `*/`, or to the end of the text if there is none; says which. -/
def closeComment (c : Cursor) : Bool × Cursor :=
  match _h : c.rest with
  | []     => (false, c)
  | x :: _ =>
      if x = '*' ∧ c.peekSecond? = some '/' then (true, c.advance.advance)
      else closeComment c.advance
termination_by c.rest.length
decreasing_by exact Cursor.length_advance_lt (by simp [*])

/-- A `/` up to `next`: a comment or an operator. -/
def readSlash (start next : Cursor) : Option Item × Cursor :=
  match next.eat? '/' with
  | some body => (none, body.eatWhile (· ≠ '\n'))
  | none =>
    match next.eat? '*' with
    | some body =>
        match closeComment body with
        | (true, stop)  => (none, stop)
        | (false, stop) => reject .openComment start stop
    | none => emit .slash start next

/-- A character up to `next` that starts neither a word nor a literal. -/
def readSymbol (x : Char) (start next : Cursor) : Option Item × Cursor :=
  match x with
  | '(' => emit .leftParen start next
  | ')' => emit .rightParen start next
  | ',' => emit .comma start next
  | ';' => emit .semicolon start next
  | '+' => emit .plus start next
  | '-' => emit .minus start next
  | '*' => emit .star start next
  | '/' => readSlash start next
  | ':' => emitEquals .colon .colonEqual start next
  | '<' => emitEquals .less .lessEqual start next
  | '>' => emitEquals .greater .greaterEqual start next
  | '=' => needEquals .loneEquals .equalEqual start next
  | '!' => needEquals .loneBang .bangEqual start next
  | x   => reject (.unexpectedChar x) start next

/-- One reading: what starts here, and the place behind it. -/
def read (start : Cursor) : Option Item × Cursor :=
  match start.rest with
  | []     => (none, start)
  | x :: _ =>
      if Text.isBlank x then (none, start.advance)
      else if isWordStart x then emitWord start (start.advance.eatWhile isWordChar)
      else if x.isDigit then emit .intLiteral start (start.advance.eatWhile Char.isDigit)
      else readSymbol x start start.advance

/-! ### Readings move on -/

theorem length_closeComment_le (c : Cursor) : (closeComment c).2.rest.length ≤ c.rest.length := by
  fun_induction closeComment c with
  | case1 => exact Nat.le_refl _
  | case2 c x xs h hx =>
      exact Nat.le_trans (Cursor.length_advance_le _) (Cursor.length_advance_le _)
  | case3 c x xs h hx ih => exact Nat.le_trans ih (Cursor.length_advance_le _)

theorem length_readSlash_le (start next : Cursor) :
    (readSlash start next).2.rest.length ≤ next.rest.length := by
  unfold readSlash
  split
  case h_1 body h =>
    exact Nat.le_trans (Cursor.length_eatWhile_le _ _) (Cursor.length_eat?_le h)
  case h_2 =>
    split
    case h_1 body h =>
      have hc := length_closeComment_le body
      split <;> simp_all only [reject] <;> exact Nat.le_trans hc (Cursor.length_eat?_le h)
    case h_2 => exact Nat.le_refl _

theorem length_emitEquals_le (one two : Kind) (start next : Cursor) :
    (emitEquals one two start next).2.rest.length ≤ next.rest.length := by
  unfold emitEquals
  split
  case h_1 stop h => exact Cursor.length_eat?_le h
  case h_2 => exact Nat.le_refl _

theorem length_needEquals_le (error : SyntaxError) (two : Kind) (start next : Cursor) :
    (needEquals error two start next).2.rest.length ≤ next.rest.length := by
  unfold needEquals
  split
  case h_1 stop h => exact Cursor.length_eat?_le h
  case h_2 => exact Nat.le_refl _

theorem length_readSymbol_le (x : Char) (start next : Cursor) :
    (readSymbol x start next).2.rest.length ≤ next.rest.length := by
  unfold readSymbol
  split
  case h_8 => exact length_readSlash_le start next
  case h_9 | h_10 | h_11 => exact length_emitEquals_le _ _ start next
  case h_12 | h_13 => exact length_needEquals_le _ _ start next
  all_goals exact Nat.le_refl _

/-- A reading passes over one character at least. -/
theorem length_read_lt {start : Cursor} (h : start.rest ≠ []) :
    (read start).2.rest.length < start.rest.length := by
  have hlt := Cursor.length_advance_lt h
  unfold read
  split
  · contradiction
  · split
    · exact hlt
    · split
      · exact Nat.lt_of_le_of_lt (Cursor.length_eatWhile_le _ _) hlt
      · split
        · exact Nat.lt_of_le_of_lt (Cursor.length_eatWhile_le _ _) hlt
        · exact Nat.lt_of_le_of_lt (length_readSymbol_le _ _ _) hlt

/-! ### From a text to its tokens -/

/-- The items from here to the end of the text. -/
def items (start : Cursor) : List Item :=
  if _h : start.rest = [] then []
  else (read start).1.toList ++ items (read start).2
termination_by start.rest.length
decreasing_by exact length_read_lt (by assumption)

end Lexer

/-- The tokens of a text, ended by one `eof`, and what is wrong with the rest of it. -/
def Token.scan (script text : String) : List Token × List Diagnostic :=
  let start := Cursor.ofString script text
  let items := Lexer.items start
  let stop := start.finish.pos
  (items.filterMap Lexer.Item.token? ++ [.endOfInput (start.finish.spanFrom stop)],
    items.filterMap Lexer.Item.problem?)

end ProcScript
