import Mathlib.Data.List.DropRight
import Mathlib.Data.String.Basic
import ProcScript.Cursor

/-!
# Lexing — places in a text

What is cut out of a text by bytes is what stands between two places that have so many in front of
them (`Text.slice?_eq_some_iff`).  `Position.after cs` is the place behind the characters `cs` that
a text starts with, and `Span.stretch script before cs` the span of the characters `cs` behind
`before`.  The counters of a place are 32-bit words.  Behind fewer bytes than there are words an
offset is the number of bytes (`Position.offset_after`), and the line and the column count line
feeds and what follows the last of them (`Position.behind_after`).
-/

namespace ProcScript

open String (utf8Len)

/-! ### Pieces of a text -/

namespace Text

variable {text front back cs : List Char} {n lo hi : Nat}

theorem cut?_eq_some_iff :
    cut? text n = some (front, back) ↔ text = front ++ back ∧ utf8Len front = n := by
  induction text generalizing n front with
  | nil =>
      rw [cut?]
      constructor
      · intro h
        split at h <;> cases h
        exact ⟨rfl, by simp [*]⟩
      · rintro ⟨h, rfl⟩
        obtain ⟨rfl, rfl⟩ := List.nil_eq_append_iff.mp h
        rfl
  | cons x xs ih =>
      have hpos := x.utf8Size_pos
      rw [cut?]
      cases front with
      | nil =>
          constructor
          · intro h
            split at h
            · cases h
              exact ⟨rfl, by simp [*]⟩
            · split at h <;> simp at h
          · rintro ⟨rfl, rfl⟩
            rfl
      | cons y front =>
          rw [List.cons_append, List.cons.injEq, String.utf8Len_cons]
          constructor
          · intro h
            split at h
            · cases h
            · split at h
              · obtain ⟨⟨front', back'⟩, hcut, heq⟩ := Option.map_eq_some_iff.mp h
                cases heq
                obtain ⟨hxs, hn⟩ := ih.mp hcut
                refine ⟨⟨rfl, hxs⟩, ?_⟩
                show utf8Len front' + x.utf8Size = n
                omega
              · cases h
          · rintro ⟨⟨rfl, hxs⟩, hn⟩
            have hcut := ih.mpr ⟨hxs, show utf8Len front = n - x.utf8Size by omega⟩
            rw [if_neg (by omega), if_pos (by omega), hcut]
            rfl

/-- What is cut out is what stands between two places with so many bytes in front of them. -/
theorem slice?_eq_some_iff : slice? text lo hi = some cs ↔ ∃ before after,
    text = before ++ cs ++ after ∧ utf8Len before = lo ∧ utf8Len (before ++ cs) = hi := by
  rw [slice?, Option.bind_eq_some_iff]
  constructor
  · rintro ⟨⟨front, after⟩, hwhole, hpiece⟩
    obtain ⟨⟨before, _⟩, hfront, rfl⟩ := Option.map_eq_some_iff.mp hpiece
    obtain ⟨rfl, hhi⟩ := cut?_eq_some_iff.mp hwhole
    obtain ⟨rfl, hlo⟩ := cut?_eq_some_iff.mp hfront
    exact ⟨before, after, rfl, hlo, hhi⟩
  · rintro ⟨before, after, rfl, hlo, hhi⟩
    refine ⟨(before ++ cs, after), cut?_eq_some_iff.mpr ⟨rfl, hhi⟩, ?_⟩
    rw [cut?_eq_some_iff.mpr ⟨rfl, hlo⟩]
    rfl

theorem slice_eq (before cs after : List Char) :
    slice (before ++ cs ++ after) (utf8Len before) (utf8Len (before ++ cs)) = .ofList cs := by
  rw [slice, slice?_eq_some_iff.mpr ⟨before, after, rfl, rfl, rfl⟩, Option.getD_some]

/-- A piece has no more bytes than there are in front of its end. -/
theorem utf8ByteSize_slice_le (text : List Char) (lo hi : Nat) :
    (slice text lo hi).utf8ByteSize ≤ hi := by
  rw [← String.utf8Len_toList, slice, String.toList_ofList]
  cases h : slice? text lo hi with
  | none => exact Nat.zero_le hi
  | some cs =>
      obtain ⟨before, after, -, -, rfl⟩ := slice?_eq_some_iff.mp h
      rw [Option.getD_some, String.utf8Len_append]
      exact Nat.le_add_left _ _

end Text

/-! ### Places -/

/-- The place behind the characters that a text starts with. -/
def Position.after (cs : List Char) : Position := cs.foldl Position.next .first

namespace Position

theorem after_append (cs ds : List Char) :
    after (cs ++ ds) = ds.foldl Position.next (after cs) :=
  List.foldl_append

theorem offset_next_mod (p : Position) (x : Char) :
    (p.next x).offset.toNat = (p.offset.toNat + x.utf8Size) % 2 ^ 32 := by
  have hoffset : (p.next x).offset = p.offset + x.utf8Size.toUInt32 := by
    rw [next]
    split <;> rfl
  have hsize : x.utf8Size.toUInt32.toNat = x.utf8Size :=
    Nat.mod_eq_of_lt (Nat.lt_of_le_of_lt x.utf8Size_le_four (by decide))
  rw [hoffset, UInt32.toNat_add, hsize]

theorem offset_next {p : Position} {x : Char} (h : p.offset.toNat + x.utf8Size < 2 ^ 32) :
    (p.next x).offset.toNat = p.offset.toNat + x.utf8Size := by
  rw [offset_next_mod, Nat.mod_eq_of_lt h]

theorem offset_foldl {p : Position} {cs : List Char}
    (h : p.offset.toNat + utf8Len cs < 2 ^ 32) :
    (cs.foldl Position.next p).offset.toNat = p.offset.toNat + utf8Len cs := by
  induction cs generalizing p with
  | nil => rfl
  | cons x cs ih =>
      rw [String.utf8Len_cons] at h
      have hone : (p.next x).offset.toNat = p.offset.toNat + x.utf8Size := offset_next (by omega)
      rw [List.foldl_cons, ih (by omega), hone, String.utf8Len_cons]
      omega

theorem offset_after {cs : List Char} (h : utf8Len cs < 2 ^ 32) :
    (after cs).offset.toNat = utf8Len cs := by
  have hzero : first.offset.toNat = 0 := rfl
  rw [after, offset_foldl (by omega), hzero, Nat.zero_add]

/-- Behind any number of bytes an offset is what is left of it in a word. -/
theorem offset_after_mod (cs : List Char) : (after cs).offset.toNat = utf8Len cs % 2 ^ 32 := by
  induction cs using List.reverseRecOn with
  | nil => rfl
  | append_singleton cs x ih =>
      rw [after_append, List.foldl_cons, List.foldl_nil, offset_next_mod, ih, Nat.mod_add_mod,
        String.utf8Len_append, String.utf8Len_cons, String.utf8Len_nil, Nat.zero_add]

/-- The place behind the characters `cs`, by all of its counters. -/
structure Behind (cs : List Char) (p : Position) : Prop where
  offset : p.offset.toNat = utf8Len cs
  line : p.line.toNat = 1 + cs.count '\n'
  column : p.column.toNat = 1 + (cs.rtakeWhile (· ≠ '\n')).length

theorem length_le_utf8Len (cs : List Char) : cs.length ≤ utf8Len cs := by
  induction cs with
  | nil => exact Nat.le_refl _
  | cons x cs ih =>
      have hpos := x.utf8Size_pos
      rw [String.utf8Len_cons, List.length_cons]
      omega

theorem Behind.next {cs : List Char} {p : Position} (hp : p.Behind cs) (x : Char)
    (h : utf8Len (cs ++ [x]) + 1 < 2 ^ 32) : (p.next x).Behind (cs ++ [x]) := by
  rw [String.utf8Len_append, String.utf8Len_cons, String.utf8Len_nil, Nat.zero_add] at h
  -- Lines and columns are not more than the bytes, so they do not overflow either.
  have hlength := length_le_utf8Len cs
  have hcount : cs.count '\n' ≤ cs.length := List.count_le_length
  have hrun : (cs.rtakeWhile (· ≠ '\n')).length ≤ cs.length :=
    (List.rtakeWhile_suffix _ cs).length_le
  have hpos := x.utf8Size_pos
  have hone : (1 : UInt32).toNat = 1 := rfl
  refine ⟨?_, ?_, ?_⟩
  · rw [offset_next (by rw [hp.offset]; omega), hp.offset]
    simp [String.utf8Len_append]
  · rw [Position.next, List.count_append]
    split
    · rename_i hx
      rw [UInt32.toNat_add, hone, hp.line, Nat.mod_eq_of_lt (by omega), hx]
      rfl
    · rename_i hx
      rw [List.count_singleton, if_neg (by simpa using hx), hp.line, Nat.add_zero]
  · rw [Position.next, List.rtakeWhile_concat]
    split
    · rename_i hx
      simp [hx, hone]
    · rename_i hx
      rw [UInt32.toNat_add, hone, hp.column, Nat.mod_eq_of_lt (by omega),
        if_pos (by simpa using hx), List.length_append, List.length_singleton]
      rfl

theorem behind_after {cs : List Char} (h : utf8Len cs + 1 < 2 ^ 32) : (after cs).Behind cs := by
  induction cs using List.reverseRecOn with
  | nil => exact ⟨rfl, rfl, rfl⟩
  | append_singleton cs x ih =>
      have hcut : utf8Len cs ≤ utf8Len (cs ++ [x]) := String.utf8Len_le_of_prefix ⟨[x], rfl⟩
      rw [after_append]
      exact (ih (by omega)).next x h

end Position

namespace Span

/-- The span of the characters `cs` behind `before`. -/
def stretch (script : String) (before cs : List Char) : Span :=
  ⟨script, .after before, .after (before ++ cs)⟩

/-- Where it starts, in bytes. -/
def lo (s : Span) : Nat := s.start.offset.toNat

/-- Where it ends, in bytes. -/
def hi (s : Span) : Nat := s.stop.offset.toNat

variable {script : String} {before cs : List Char}

theorem lo_stretch (h : utf8Len (before ++ cs) < 2 ^ 32) :
    (stretch script before cs).lo = utf8Len before :=
  Position.offset_after (Nat.lt_of_le_of_lt (String.utf8Len_le_of_prefix ⟨cs, rfl⟩) h)

theorem hi_stretch (h : utf8Len (before ++ cs) < 2 ^ 32) :
    (stretch script before cs).hi = utf8Len (before ++ cs) :=
  Position.offset_after h

end Span

theorem utf8Len_replicate (n : Nat) (x : Char) :
    utf8Len (List.replicate n x) = n * x.utf8Size := by
  induction n with
  | zero => rw [List.replicate_zero, String.utf8Len_nil, Nat.zero_mul]
  | succ n ih => rw [List.replicate_succ, String.utf8Len_cons, ih, Nat.succ_mul]

theorem utf8Len_pos {cs : List Char} (h : cs ≠ []) : 0 < utf8Len cs :=
  Nat.pos_of_ne_zero fun hzero => h (String.utf8Len_eq_zero.mp hzero)

/-- Of two beginnings of one text the one with fewer bytes is a beginning of the other. -/
theorem exists_append_of_utf8Len_le {cs ds cs' ds' : List Char} (h : cs ++ cs' = ds ++ ds')
    (hle : utf8Len cs ≤ utf8Len ds) : ∃ es, ds = cs ++ es ∧ cs' = es ++ ds' := by
  rcases List.append_eq_append_iff.mp h with ⟨es, hds, hcs'⟩ | ⟨es, hcs, hds'⟩
  · exact ⟨es, hds, hcs'⟩
  · -- The other way round what is between them has no bytes.
    rw [hcs, String.utf8Len_append] at hle
    have hes : es = [] := String.utf8Len_eq_zero.mp (by omega)
    subst hes
    exact ⟨[], by simpa using hcs.symm, by simpa using hds'.symm⟩

end ProcScript
