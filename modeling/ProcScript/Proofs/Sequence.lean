import Mathlib
import ProcScript.Proofs.Nesting
import ProcScript.Proofs.Syntax.Moves

/-!
# Sequence

**What is wrong with a text comes in the order of the text**, first what is wrong with its
characters and then what is wrong with its tokens (`SourceText.errors_in_sequence`).  The faults of
the lexer stand one behind the other as its tokens do.  A reader is `Reader.InSequence` if nothing
it has found starts behind the token that comes next.  Each of its moves keeps to that
(`Reader.Move.inSequence`): what it reports starts at the token that comes next or at the one it
just passed, and passing a token it only gets further.
-/

namespace ProcScript

/-- The one starts where the other does or before it. -/
def Span.NotAfter (s t : Span) : Prop := s.lo ≤ t.lo

/-- What joins a span with one that does not start before it starts as the first one does. -/
theorem Span.NotAfter.lo_merge {a b : Span} (h : a.NotAfter b) :
    (a.merge b).lo = a.lo := by
  rw [Span.merge, Span.lo, if_pos (UInt32.le_iff_toNat_le.mpr h)]
  rfl

namespace Reader

/-- The tokens to come stand in the order of the text, and so does what was found before them. -/
structure InSequence (r : Reader) : Prop where
  /-- No token starts before one that comes earlier, up to the `eof`, -/
  toCome : (r.rest ++ [r.stop]).Pairwise fun t u => t.span.NotAfter u.span
  /-- nothing was found that starts before what was found earlier, -/
  found : r.found.Pairwise fun d e => d.loc.NotAfter e.loc
  /-- and nothing that starts behind what comes next. -/
  reached : ∀ d ∈ r.found, d.loc.NotAfter r.current.span

variable {r s : Reader} {t : Token} {ts : List Token}

/-- What comes next is one of the tokens to come, or the end. -/
theorem current_mem (r : Reader) : r.current ∈ r.rest ++ [r.stop] := by
  rw [current]
  cases r.rest <;> simp

theorem current_eq (hr : r.rest = t :: ts) : r.current = t := by
  simp [current, hr]

namespace InSequence

/-- A token starts where the next one does or before it. -/
theorem notAfter_current (h : r.InSequence) (hr : r.rest = t :: ts) :
    t.span.NotAfter r.advance.current.span := by
  have hp := Passes.advance hr
  have htoCome := h.toCome
  rw [hr, List.cons_append, List.pairwise_cons] at htoCome
  have hmem := r.advance.current_mem
  rw [advance_rest, hr, List.tail_cons, hp.stop] at hmem
  exact htoCome.1 _ hmem

theorem advance (h : r.InSequence) (hr : r.rest = t :: ts) : r.advance.InSequence := by
  have hp := Passes.advance hr
  have hfound : r.advance.found = r.found := by rw [hp.found, List.append_nil]
  refine ⟨?_, ?_, ?_⟩
  · have htoCome := h.toCome
    rw [hr, List.cons_append, List.pairwise_cons] at htoCome
    rw [advance_rest, hr, List.tail_cons, hp.stop]
    exact htoCome.2
  · rw [hfound]
    exact h.found
  · rw [hfound]
    intro d hd
    have hreached := h.reached d hd
    rw [current_eq hr] at hreached
    exact Nat.le_trans hreached (h.notAfter_current hr)

/-- What is reported does not start before what was found nor behind what comes next. -/
theorem report (h : r.InSequence) {loc : Span} (hfound : ∀ d ∈ r.found, d.loc.NotAfter loc)
    (hnext : loc.NotAfter r.current.span) (error : SyntaxError) :
    (r.report error loc).InSequence := by
  refine ⟨h.toCome, ?_, ?_⟩
  · rw [Reader.report, List.pairwise_append]
    refine ⟨h.found, List.pairwise_singleton _ _, fun d hd e he => ?_⟩
    rw [List.mem_singleton.mp he]
    exact hfound d hd
  · rw [Reader.report, List.forall_mem_append, List.forall_mem_singleton]
    exact ⟨h.reached, hnext⟩

/-- The token just passed may be reported, and so may what starts with it. -/
theorem report_passed (h : r.InSequence) (hr : r.rest = t :: ts) {loc : Span}
    (hloc : loc.lo = t.span.lo) (error : SyntaxError) :
    (r.advance.report error loc).InSequence := by
  refine (h.advance hr).report ?_ ?_ error
  · intro d hd
    rw [(Passes.advance hr).found, List.append_nil] at hd
    have hreached := h.reached d hd
    rw [current_eq hr] at hreached
    rwa [Span.NotAfter, hloc]
  · rw [Span.NotAfter, hloc]
    exact h.notAfter_current hr

end InSequence

/-- **Each move keeps the sequence.** -/
theorem Move.inSequence (hm : r.Move s) (h : r.InSequence) : s.InSequence := by
  cases hm with
  | advance hr => exact h.advance hr
  | number => exact ⟨h.toCome, h.found, h.reached⟩
  | expected what => exact h.report h.reached (Nat.le_refl _) _
  | stray what hr => exact h.report_passed hr rfl _
  | outOfRange hr => exact h.report_passed hr rfl _
  | callAsValue hr hnext => exact h.report_passed hr (h.notAfter_current hr).lo_merge _

/-- A whole reading keeps it. -/
theorem InSequence.procedures (h : r.InSequence) : r.procedures.2.InSequence :=
  (moves_procedures r).keeps (fun _ _ => Move.inSequence) h

end Reader

namespace SourceText

variable (s : SourceText) (hlen : s.text.utf8ByteSize < 2 ^ 32 - 1)
include hlen

/-- The tokens of a text are a sequence before anything was found. -/
theorem inSequence_scan : (Reader.ofTokens s.scan.1).InSequence := by
  have hordered := s.ordered_tokens hlen
  obtain ⟨-, hstop, hcovers⟩ := s.scan_eq
  refine ⟨?_, .nil, List.forall_mem_nil _⟩
  rw [List.pairwise_append]
  refine ⟨hordered.increasing.imp fun h => Nat.le_of_lt h.1, List.pairwise_singleton _ _, ?_⟩
  intro t ht u hu
  rw [List.mem_singleton.mp hu, hstop]
  -- The end stands behind all bytes, and a token does not reach over it.
  have hgenuine := (hcovers t ht).genuine hlen
  have hend : (Span.atEnd s.name s.text.toList).lo = s.text.utf8ByteSize :=
    congrArg Prod.fst (Span.byteRange_atEnd hlen s.name)
  show t.span.lo ≤ (Span.atEnd s.name s.text.toList).lo
  rw [hend]
  exact Nat.le_trans hgenuine.ordered hgenuine.inside

/-- **What is wrong with a text comes in the order of the text.** -/
theorem errors_in_sequence :
    (Script.ofText s.name s.text).2 = s.scan.2 ++ s.read.2 ∧
      (∀ d ∈ s.scan.2, d.loc.lo < d.loc.hi) ∧
      s.scan.2.Pairwise (fun d e => d.loc.Before e.loc) ∧
      s.read.2.Pairwise fun d e => d.loc.NotAfter e.loc := by
  have haccounts := Lexer.accounts_items s.name s.text hlen
  refine ⟨congrArg Prod.snd s.ofText_eq, fun d hd => ?_, ?_, ?_⟩
  · exact haccounts.nonempty _ (List.mem_append_right _ (List.mem_map_of_mem hd))
  · exact List.pairwise_map.mp haccounts.problems
  · exact (s.inSequence_scan hlen).procedures.found

end SourceText

/-- A call used as a value, a literal out of range with a `)` behind its operator, and a `;` behind
an `end`; two characters that start no token stand among them. -/
def SourceText.muddled : SourceText := ⟨"a", "def f():Void is x:=@g(1);y:=2147483648*);end;="⟩

/-- What is wrong with its tokens starts at the bytes 20, 28, 39 and 44. -/
theorem SourceText.muddled_in_sequence :
    muddled.text.utf8ByteSize < 2 ^ 32 - 1 ∧
      muddled.read.2.map (fun d => d.loc.lo) = [20, 28, 39, 44] ∧
      muddled.scan.2.Pairwise (fun d e => d.loc.Before e.loc) ∧
      muddled.read.2.Pairwise fun d e => d.loc.NotAfter e.loc := by
  have hsize : muddled.text.utf8ByteSize < 2 ^ 32 - 1 := by decide
  have hread : muddled.read.2.map (fun d => d.loc.lo) = [20, 28, 39, 44] := by cbv
  exact ⟨hsize, hread, (errors_in_sequence muddled hsize).2.2⟩

end ProcScript
