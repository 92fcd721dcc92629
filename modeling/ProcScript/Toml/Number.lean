import ProcScript.Toml.Lexical
import ProcScript.Toml.Node

/-!
# ProcScript — Toml — Number

The numbers, dates and times of TOML.  An underscore may stand between two digits; integers
have 64 bits.  A number with a fraction or an exponent is not kept, but it must not round to
more than the largest binary64 number, which `overflows` decides exactly.  Dates and times have
to exist.
-/

namespace ProcScript.Toml

open ProcScript.Text Scan

/-- Digits with `p`, and underscores between them, which are left out. -/
def digitRun (p : Char → Bool) : Scan (List Char) := do
  return (← char p) :: (← many (char p <|> (one '_' *> char p)))

/-- A sign, if any: whether it is a minus. -/
def sign : Scan Bool := (one '-' *> pure true) <|> (one '+' *> pure false) <|> pure false

/-- A decimal integer: its sign, and its digits without leading zeros. -/
def decimal : Scan (Bool × List Char) := do
  let negative ← sign
  let digits ← (one '0' *> pure ['0']) <|> digitRun Char.isDigit
  return (negative, digits)

/-- The least integer of 64 bits has this number below zero; the greatest has one less above. -/
def int64Bound : Nat := Nat.pow 2 63

/-- An integer in a base that stands before it. -/
def integerIn (mark : Char) (base : Nat) (isDigit : Char → Bool) : Scan Int := do
  word ['0', mark]
  let n := valueIn base (← digitRun isDigit)
  if n < int64Bound then return n else failure

/-- An integer. -/
def integer : Scan Int :=
  integerIn 'x' 16 isHexDigit
    <|> integerIn 'o' 8 (fun c => '0' ≤ c && c ≤ '7')
    <|> integerIn 'b' 2 (fun c => c == '0' || c == '1')
    <|> do
      let (negative, digits) ← decimal
      let n := valueIn 10 digits
      if negative then
        if n ≤ int64Bound then return -n else failure
      else
        if n < int64Bound then return n else failure

/-! ### Numbers with a fraction -/

/-- The least number that rounds to more than the largest binary64 number: half a unit of the
last place above it. -/
def overflowBound : Nat := Nat.pow 2 1024 - Nat.pow 2 970

/-- `n · 10 ^ e` rounds to more than the largest binary64 number. -/
def overflows (n : Nat) (e : Int) : Bool :=
  let width : Int := (Nat.toDigits 10 n).length
  if n = 0 ∨ width + e ≤ 308 then false
  else if 310 ≤ width + e then true
  else if 0 ≤ e then overflowBound ≤ n * Nat.pow 10 e.toNat
  else overflowBound * Nat.pow 10 (-e).toNat ≤ n

/-- The exponent of a number. -/
def exponent : Scan Int := do
  one 'e' <|> one 'E'
  let negative ← sign
  let n := valueIn 10 (← digitRun Char.isDigit)
  return if negative then -n else n

/-- The digits behind the point of a number. -/
def fraction : Scan (List Char) := one '.' *> digitRun Char.isDigit

/-- A number with a fraction or an exponent or both. -/
def float : Scan Unit := do
  let (negative, whole) ← decimal
  let (part, e) ← (do return ([], ← exponent))
    <|> (do return (← fraction, (← optional exponent).getD 0))
  if !negative && overflows (valueIn 10 (whole ++ part)) (e - part.length) then failure

/-- Infinity, or what is no number. -/
def specialFloat : Scan Unit := discard sign *> (word ['i', 'n', 'f'] <|> word ['n', 'a', 'n'])

/-! ### Dates and times -/

/-- A number of exactly `n` digits between two bounds. -/
def fixed (n low high : Nat) : Scan Nat := do
  let value := valueIn 10 (← times n (char Char.isDigit))
  if low ≤ value ∧ value ≤ high then return value else failure

/-- The length of a month in the Gregorian calendar. -/
def daysIn (year month : Nat) : Nat :=
  if month = 2 then if year % 4 = 0 ∧ (year % 100 ≠ 0 ∨ year % 400 = 0) then 29 else 28
  else if month = 4 ∨ month = 6 ∨ month = 9 ∨ month = 11 then 30
  else 31

/-- A day. -/
def date : Scan Unit := do
  let year ← fixed 4 0 9999
  one '-'
  let month ← fixed 2 1 12
  one '-'
  discard (fixed 2 1 (daysIn year month))

/-- A time of day, which may be a leap second. -/
def time : Scan Unit := do
  discard (fixed 2 0 23)
  one ':'
  discard (fixed 2 0 59)
  one ':'
  discard (fixed 2 0 60)
  discard (optional (one '.' *> many1 (char Char.isDigit)))

/-- The distance from universal time. -/
def offset : Scan Unit :=
  one 'Z' <|> one 'z' <|> do
    one '+' <|> one '-'
    discard (fixed 2 0 23)
    one ':'
    discard (fixed 2 0 59)

/-- A date, a time, or both, then with or without an offset. -/
def dateTime : Scan Unit :=
  (date *> discard (optional ((one 'T' <|> one 't' <|> one ' ') *> time *> optional offset)))
    <|> time

/-- A number, a date or a time, whichever is longest. -/
def numberOrDate : Scan Node :=
  (dateTime *> pure .dateTime)
    <|> (float *> pure .float)
    <|> (specialFloat *> pure .float)
    <|> (do return .integer (← integer))

end ProcScript.Toml
