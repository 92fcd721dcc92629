import Mathlib
import ProcScript.Proofs.Syntax.Lockstep

/-!
# Syntax — procedures are read apart

**Procedures are read independently of one another** (`Script.ofTokens_append`): behind any
tokens without an `eof`, however broken, tokens that start with a `def` are read as they are
by themselves, except that their expressions are numbered on.  The proof goes in two legs.  The
tokens in front are read in a setting where the others stand behind them; then the others are
read in a setting where no more tokens stand behind and what was found in front is found before.
-/

namespace ProcScript

namespace Reader

/-- What was passed last is no matter before a token that is passed next. -/
theorem procedures_last {r : Reader} (h : r.rest ≠ []) (k : Kind) :
    ({ r with last := k } : Reader).procedures = r.procedures := by
  obtain ⟨t, ts, h⟩ := List.exists_cons_of_ne_nil h
  rw [procedures.eq_def r, procedures.eq_def]
  simp only [next?, h, List.cons_ne_nil, ↓reduceDIte, current, advance]

theorem ofTokens_prepend {as bs : List Token} (ha : ∀ t ∈ as, t.kind ≠ .eof) (hb : bs ≠ []) :
    ofTokens (as ++ bs) = { ofTokens bs with rest := as ++ (ofTokens bs).rest } := by
  have hfind : as.find? (fun t => t.kind = .eof) = none := by
    simpa using ha
  have htake : (as ++ bs).takeWhile (fun t => t.kind ≠ .eof) =
      as ++ bs.takeWhile fun t => t.kind ≠ .eof :=
    List.takeWhile_append_of_pos (by simpa using ha)
  simpa [ofTokens, hfind, List.getLast?_append, List.getLast?_eq_some_getLast hb] using htake

end Reader

namespace Setting

variable {as bs : List Token} {d : Token} {k : ExprId} {before : List Diagnostic}

/-- Tokens as they are, with `d` and `bs` behind them. -/
def inFront (hd : d.kind = .kwDef) (bs : List Token) : Setting where
  label := .same
  tail := (Reader.ofTokens (d :: bs)).rest
  stop := (Reader.ofTokens (d :: bs)).stop
  before := []
  opens := by simp [Reader.ofTokens, hd]
  closes := Reader.ofTokens_stop _

theorem edge_inFront (hd : d.kind = .kwDef) : (inFront hd bs).edge = d := by
  simp [edge, inFront, Reader.ofTokens, hd]

theorem shows_inFront (ha : ∀ t ∈ as, t.kind ≠ .eof) (hd : d.kind = .kwDef) (bs : List Token) :
    (inFront hd bs).Shows (Reader.ofTokens as) (Reader.ofTokens (as ++ d :: bs)) := by
  refine shows_ofTokens ?_
  have htake : (Reader.ofTokens as).rest = as :=
    List.takeWhile_eq_self_iff.mpr (by simpa using ha)
  have hsame : as.map (Token.relabel (inFront hd bs).label) = as :=
    List.map_id'' Token.relabel_same as
  rw [Reader.ofTokens_prepend ha (List.cons_ne_nil d bs), view, htake, hsame]
  rfl

theorem view_inFront {r : Reader} (hr : r.rest = []) (hd : d.kind = .kwDef) :
    (inFront hd bs).view r = { Reader.ofTokens (d :: bs) with
      last := r.last
      nextId := r.nextId
      found := r.found.map (Diagnostic.facing d) } := by
  have hretell : (inFront hd bs).retell = Diagnostic.facing d := by
    funext e
    rw [retell, edge_inFront]
    exact congrArg _ e.relabel_same
  rw [view, hretell, hr]
  rfl

/-- Tokens whose expressions are numbered from `k` on, and what was found before them. -/
def behind (bs : List Token) (k : ExprId) (before : List Diagnostic) : Setting where
  label := .shift k
  tail := []
  stop := (Reader.ofTokens bs).stop
  before := before
  opens := opens_nil
  closes := Reader.ofTokens_stop bs

theorem shows_behind (bs : List Token) (k : ExprId) (before : List Diagnostic) :
    (behind bs k before).Shows (Reader.ofTokens bs)
      { Reader.ofTokens bs with nextId := k, found := before } := by
  refine shows_ofTokens ?_
  have hsame : (Reader.ofTokens bs).rest.map (Token.relabel (behind bs k before).label) =
      (Reader.ofTokens bs).rest := List.map_id'' Token.relabel_same _
  have hid : (behind bs k before).label.id 0 = k := UInt32.zero_add k
  have hzero : (Reader.ofTokens bs).nextId = 0 := rfl
  rw [view, hsame, hzero, hid]
  simp [behind, Reader.ofTokens]

/-- What is found at the end of the tokens is found where the `eof` stands, so it is the same
whatever comes before the tokens. -/
theorem retell_behind : (Reader.ofTokens bs).procedures.2.found.map (behind bs k before).retell =
    (Reader.ofTokens bs).procedures.2.found := by
  have hshows : (behind bs 0 []).Shows (Reader.ofTokens bs) (Reader.ofTokens bs) :=
    shows_behind bs 0 []
  have hlast := congrArg (fun p => p.2.found) (hshows.procedures_of_tail rfl)
  exact hlast.symm

/-- Tokens that start with a `def` are read alike, whatever was passed, numbered and found. -/
theorem procedures_behind (hd : d.kind = .kwDef) (bs : List Token) (last : Kind) (k : ExprId)
    (before : List Diagnostic) :
    ∃ v : Reader, v.found = before ++ (Reader.ofTokens (d :: bs)).procedures.2.found ∧
      ({ Reader.ofTokens (d :: bs) with last := last, nextId := k, found := before } :
          Reader).procedures =
        ((Reader.ofTokens (d :: bs)).procedures.1.map (Procedure.relabel (.shift k)), v) := by
  have hne : ({ Reader.ofTokens (d :: bs) with nextId := k, found := before } : Reader).rest ≠ [] :=
    by simp [Reader.ofTokens, hd]
  have hread := (shows_behind (d :: bs) k before).procedures_of_tail rfl
  refine ⟨_, ?_, (Reader.procedures_last hne last).trans hread⟩
  rw [view, retell_behind]
  rfl

end Setting

/-- **Procedures are read independently of one another.**  Tokens `as` without an `eof` and tokens
behind them that start with a `def` are read one after the other.  The expressions of the latter
are numbered on from the number that the former end with, and what was found at the end of the
former is found at the `def`. -/
theorem Script.ofTokens_append {as bs : List Token} {d : Token}
    (ha : ∀ t ∈ as, t.kind ≠ .eof) (hd : d.kind = .kwDef) :
    (Script.ofTokens (as ++ d :: bs)).1.procedures =
        (Script.ofTokens as).1.procedures ++ (Script.ofTokens (d :: bs)).1.procedures.map
          (Procedure.relabel (.shift (Reader.ofTokens as).procedures.2.nextId)) ∧
      (Script.ofTokens (as ++ d :: bs)).2 =
        (Script.ofTokens as).2.map (Diagnostic.facing d) ++ (Script.ofTokens (d :: bs)).2 := by
  obtain ⟨u, hu, hfront⟩ := (Setting.shows_inFront ha hd bs).procedures
  rw [hu.eq, Setting.view_inFront (Reader.procedures_rest _) hd] at hfront
  obtain ⟨v, hv, hbehind⟩ := Setting.procedures_behind hd bs
    (Reader.ofTokens as).procedures.2.last (Reader.ofTokens as).procedures.2.nextId
    ((Reader.ofTokens as).procedures.2.found.map (Diagnostic.facing d))
  rw [hbehind] at hfront
  have hsame : (Reader.ofTokens as).procedures.1.map
      (Procedure.relabel (Setting.inFront hd bs).label) = (Reader.ofTokens as).procedures.1 :=
    List.map_id'' Procedure.relabel_same _
  rw [hsame] at hfront
  exact ⟨congrArg Prod.fst hfront, (congrArg (fun p => p.2.found) hfront).trans hv⟩

/-- Tokens of a script, one on each line. -/
def Token.lines (source : String) (ws : List (Kind × String)) : List Token :=
  ws.mapIdx fun i w =>
    ⟨w.1, w.2, ⟨source, ⟨.ofNat i + 1, 1, .ofNat i⟩, ⟨.ofNat i + 1, 2, .ofNat i + 1⟩⟩⟩

/-- `def f(): Int is while true do x := (1 +`. -/
def Script.cutOff : List Token :=
  Token.lines "a" [(.kwDef, "def"), (.identifier, "f"), (.leftParen, "("), (.rightParen, ")"),
    (.colon, ":"), (.identifier, "Int"), (.kwIs, "is"), (.kwWhile, "while"), (.kwTrue, "true"),
    (.kwDo, "do"), (.identifier, "x"), (.colonEqual, ":="), (.leftParen, "("),
    (.intLiteral, "1"), (.plus, "+")]

/-- `def g(): Int is return -x; end )`. -/
def Script.whole : List Token :=
  Token.lines "b" [(.kwDef, "def"), (.identifier, "g"), (.leftParen, "("), (.rightParen, ")"),
    (.colon, ":"), (.identifier, "Int"), (.kwIs, "is"), (.kwReturn, "return"), (.minus, "-"),
    (.identifier, "x"), (.semicolon, ";"), (.kwEnd, "end"), (.rightParen, ")")]

/-- What is cut off is reported at the next `def`, and that procedure is read from there. -/
theorem Script.cutOff_append :
    let line : UInt32 → Span := fun n => ⟨"b", ⟨n, 1, n - 1⟩, ⟨n, 2, n⟩⟩
    (∀ t ∈ cutOff, t.kind ≠ .eof) ∧ (ofTokens (cutOff ++ whole)).1.exprIds = [2, 3] ∧
      (ofTokens (cutOff ++ whole)).2 =
        [.syntaxError (.expected .expression .kwDef) (line 1),
          .syntaxError (.expected (.token .kwEnd) .kwDef) (line 1),
          .syntaxError (.expected (.token .kwEnd) .kwDef) (line 1),
          .syntaxError (.expected (.token .kwDef) .rightParen) (line 13)] := by
  have ha : ∀ t ∈ cutOff, t.kind ≠ .eof := by decide
  have h : (ofTokens (cutOff ++ whole)).1.procedures = _ ∧
      (ofTokens (cutOff ++ whole)).2 = _ := Script.ofTokens_append ha rfl
  refine ⟨ha, ?_, ?_⟩
  · rw [exprIds, h.1]
    cbv
  · rw [h.2]
    cbv

end ProcScript
