import ProcScript.Reader.Stmt
import ProcScript.Token.Lexer

/-!
# ProcScript — Reader — Script

Procedures and whole scripts from tokens, and scripts from text.  What stands between
procedures is reported and skipped up to the next `def`; a procedure that fails is left out.
Every list of tokens and every text has a script, that of the procedures that could be read,
next to what was found wrong.
-/

namespace ProcScript

namespace Reader

/-- `name : Type`. -/
def param (r : Reader) : Outcome Param r.rest.length :=
  (r.expect .identifier).bind fun name s _ =>
  (s.expect .colon).bind fun _ s _ =>
  s.typeName.map fun type => ⟨name.lexeme, type, name.span.merge type.span⟩

/-- Parameters between commas, one at least, and the `)` behind them. -/
def paramList (r : Reader) : Outcome (List Param) r.rest.length :=
  r.param.bind fun p s _ =>
    match s.eat? .comma with
    | some ⟨s', h'⟩ => (s'.paramList.map (p :: ·)).past h'
    | none          => (s.expect .rightParen).map fun _ => [p]
termination_by r.rest.length

/-- The parameters of a procedure, behind the `(`, and the `)` behind them. -/
def params (r : Reader) : Outcome (List Param) r.rest.length :=
  if r.peek = .rightParen then (r.expect .rightParen).map fun _ => [] else r.paramList

/-- `name ( params ) : Type is stmt* end` behind `def`. -/
def procedure (start : Span) (r : Reader) : Outcome Procedure r.rest.length :=
  (r.expect .identifier).bind fun name s _ =>
  (s.expect .leftParen).bind fun _ s _ =>
  s.params.bind fun params s _ =>
  (s.expect .colon).bind fun _ s _ =>
  s.typeName.bind fun returns s _ =>
  (s.expect .kwIs).bind fun _ s _ =>
  (s.block [.kwEnd]).bind fun body s _ =>
  (s.expect .kwEnd).map fun t => ⟨name.lexeme, params, returns, body, start.merge t.span⟩

/-- To the next `def`, behind a token `t` that stands between procedures. -/
def pastStray (t : Token) (r : Reader) : Reader :=
  (r.report (.expected (.token .kwDef) t.kind) t.span).toDef

theorem length_pastStray_le (t : Token) (r : Reader) :
    (r.pastStray t).rest.length ≤ r.rest.length :=
  length_toDef_le _

/-- The procedures from here to the end, and the reader there. -/
def procedures (r : Reader) : List Procedure × Reader :=
  match r.next? with
  | none => ([], r)
  | some (t, ⟨s, _⟩) =>
    if t.kind = .kwDef then
      match s.procedure t.span with
      | .ok p s' _ => let (ps, last) := s'.procedures; (p :: ps, last)
      | .fail s' _ =>
          have := length_toDef_le s'
          s'.toDef.procedures
    else
      have := length_pastStray_le t s
      (s.pastStray t).procedures
termination_by r.rest.length

end Reader

namespace Script

/-- The script of a token list, and what is wrong with the list. -/
def ofTokens (ts : List Token) : Script × List Diagnostic :=
  let start := Reader.ofTokens ts
  let (procedures, last) := start.procedures
  let span := start.current.span.merge last.current.span
  (⟨span.source, procedures, span⟩, last.found)

/-- The script of a text, and what is wrong with the text: first what starts no token. -/
def ofText (source text : String) : Script × List Diagnostic :=
  let (tokens, faults) := Token.scan source text
  let (script, problems) := ofTokens tokens
  (script, faults ++ problems)

end Script

end ProcScript
