/-!
# ProcScript — Text — Visible

What is left of a text when its control characters and escape sequences are taken out.  Tabs
and the ends of lines and pages stay.  An escape sequence begins with the escape character, and
what follows says where it ends: after one character more, at the end of a control sequence
such as `[31m`, or at the terminator of a string.  A tab or an end of a line inside a sequence
that is no string interrupts it: what follows is shown, up to the next control character, and
there the sequence goes on, unless a character beyond ASCII came before.

A text without control characters is left as it is (`strip_eq_self`), and nothing that is left
is a control character of ASCII other than a tab or an end of a line or page
(`isPlain_of_mem_strip`).
-/

namespace ProcScript.Text

/-- A tab, or an end of a line or a page. -/
def isLayout (c : Char) : Bool := c == '\t' || c == '\n' || c == '\x0c' || c == '\r'

/-- A character that shows outside escape sequences. -/
def isPlain (c : Char) : Bool := isLayout c || (0x20 ≤ c.toNat && c.toNat != 0x7F)

/-- The code point of `c` lies between two others, or is one of them. -/
def isWithin (first last : Nat) (c : Char) : Bool := first ≤ c.toNat && c.toNat ≤ last

/-- The byte 0x9C, which ends a string, occurs in `c`. -/
def hasTerminator (c : Char) : Bool := (String.utf8EncodeChar c).contains 0x9C

/-- How far into an escape sequence a text is. -/
inductive Escape where
  | outside
  /-- Behind the escape character. -/
  | begun
  /-- Behind characters that only the last one of a short sequence follows. -/
  | intermediate
  /-- In a control sequence. -/
  | control
  /-- At the head of a string for a device. -/
  | device
  /-- Among the parameters of a string for a device. -/
  | deviceParameters
  /-- Behind the parameters of a string for a device. -/
  | deviceIntermediate
  /-- In a string that a terminator ends. -/
  | string
  /-- In a command to the system, which the bell ends. -/
  | command
  deriving DecidableEq, Inhabited

namespace Escape

/-- The character shows here, rather than belonging to the sequence or being dropped. -/
def shows : Escape → Char → Bool
  | outside, c                          => isPlain c
  | begun, c | intermediate, c | control, c => isLayout c
  | _, _                                => false

/-- Behind a character that does not show. -/
def next (e : Escape) (c : Char) : Escape :=
  if c = '\x1b' then begun
  else if c = '\x18' ∨ c = '\x1a' then outside
  else match e with
    | outside => outside
    | begun =>
        if c = '[' then control
        else if c = ']' then command
        else if c = 'P' then device
        else if c = 'X' ∨ c = '^' ∨ c = '_' then string
        else if isWithin 0x20 0x2F c then intermediate
        else if isWithin 0x30 0x7E c then outside
        else begun
    | intermediate => if isWithin 0x30 0x7E c then outside else intermediate
    | control      => if isWithin 0x40 0x7E c then outside else control
    | device =>
        if isWithin 0x20 0x2F c then deviceIntermediate
        else if isWithin 0x30 0x3F c then deviceParameters
        else if isWithin 0x40 0x7E c then string
        else device
    | deviceParameters =>
        if isWithin 0x20 0x2F c then deviceIntermediate
        else if isWithin 0x3C 0x7E c then string
        else deviceParameters
    | deviceIntermediate => if isWithin 0x30 0x7E c then string else deviceIntermediate
    | string             => if hasTerminator c then outside else string
    | command            => if c = '\x07' then outside else command

/-- Behind a character that shows: beyond ASCII it ends the sequence that it interrupts. -/
def behindShown (e : Escape) (c : Char) : Escape := if c.toNat < 0x80 then e else outside

end Escape

/-- What is left of a text that starts within `e`, interrupted or not. -/
def strip (e : Escape) (interrupted : Bool) : List Char → List Char
  | []      => []
  | c :: cs =>
      if interrupted && isPlain c || e.shows c then c :: strip (e.behindShown c) true cs
      else strip (e.next c) false cs

/-- What is left of a text without its control characters and escape sequences. -/
def visible (text : String) : String := String.ofList (strip .outside false text.toList)

theorem isPlain_of_shows {e : Escape} {c : Char} (h : e.shows c = true) : isPlain c = true := by
  cases e <;> simp_all [Escape.shows, isPlain]

/-- Nothing is left but characters that show. -/
theorem isPlain_of_mem_strip {e : Escape} {interrupted : Bool} {cs : List Char} {c : Char}
    (h : c ∈ strip e interrupted cs) : isPlain c = true := by
  induction cs generalizing e interrupted with
  | nil => cases h
  | cons d ds ih =>
    rw [strip] at h
    split at h
    · rename_i hd
      rcases List.mem_cons.mp h with rfl | h
      · rcases Bool.or_eq_true_iff.mp hd with hd | hd
        · exact (Bool.and_eq_true_iff.mp hd).2
        · exact isPlain_of_shows hd
      · exact ih h
    · exact ih h

/-- Outside escape sequences, a text whose characters all show is left as it is. -/
theorem strip_eq_self {interrupted : Bool} {cs : List Char} (h : ∀ c ∈ cs, isPlain c = true) :
    strip .outside interrupted cs = cs := by
  induction cs generalizing interrupted with
  | nil => rfl
  | cons c cs ih =>
    have hc : Escape.outside.shows c = true := h c List.mem_cons_self
    have hb : Escape.outside.behindShown c = .outside := by simp [Escape.behindShown]
    rw [strip, hc, Bool.or_true, if_pos rfl, hb, ih fun d hd => h d (List.mem_cons_of_mem c hd)]

end ProcScript.Text
