/-!
# ProcScript — Text — Slice

Pieces of a text by their UTF-8 bytes.  A piece is cut from the start of the text, whatever was
read of it; where a byte is no place between two characters nothing is cut there.
-/

namespace ProcScript.Text

/-- The text in front of its byte `n`, and the text from there on. -/
def cut? : List Char → Nat → Option (List Char × List Char)
  | [],      n => if n = 0 then some ([], []) else none
  | x :: xs, n =>
      if n = 0 then some ([], x :: xs)
      else if x.utf8Size ≤ n then
        (cut? xs (n - x.utf8Size)).map fun halves => (x :: halves.1, halves.2)
      else none

/-- The text from its byte `lo` up to its byte `hi`. -/
def slice? (text : List Char) (lo hi : Nat) : Option (List Char) :=
  (cut? text hi).bind fun halves => (cut? halves.1 lo).map Prod.snd

/-- The text from its byte `lo` up to its byte `hi`; empty if there is none. -/
def slice (text : List Char) (lo hi : Nat) : String := .ofList ((slice? text lo hi).getD [])

end ProcScript.Text
