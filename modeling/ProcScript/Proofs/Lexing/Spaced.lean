import Mathlib
import ProcScript.Proofs.Lexing.Munch

/-!
# Lexing — lists of tokens as texts

A list of tokens is written as its texts with a space between any two.  **Exactly if each text is
one of its kind, the list is read back from what is written** (`Token.scan_spaced_iff`), as long as
no offset overflows: with the same kinds and texts, an `eof` behind them, and nothing wrong.  The
one direction reads the texts one by one, whatever stands next to what (`Token.scan_spaced`); the
other holds since the lexer takes nothing for a token that is none.  So a text can be written with
single spaces instead of what stands between its tokens (`Token.scan_respaced`).
-/

namespace ProcScript

namespace Token

/-- What a token is, wherever it stands. -/
def entry (t : Token) : Kind × String := (t.kind, t.lexeme)

variable {script text : String}

/-- The tokens of a text, without the `eof` behind them. -/
def entries (script text : String) : List (Kind × String) :=
  ((Lexer.items (.ofString script text)).filterMap Lexer.Item.token?).map entry

theorem map_entry_scan (script text : String) :
    (scan script text).1.map entry = entries script text ++ [(.eof, "")] := by
  rw [scan_end, List.map_append]
  rfl

/-- What the lexer takes for a token is one. -/
theorem spells_of_mem_entries (hlen : text.utf8ByteSize < 2 ^ 32) {p : Kind × String}
    (h : p ∈ entries script text) : p.1.Spells p.2 := by
  obtain ⟨t, ht, rfl⟩ := List.mem_map.mp h
  obtain ⟨_, _, -, -, hmunches⟩ := Lexer.munches_items (.ofString script text)
    (Cursor.reaches_ofString hlen) (Lexer.mem_filterMap_token.mp ht)
  exact hmunches.spells

/-- Texts of tokens are read back from themselves with a space between any two. -/
theorem map_entry_spaced {ps : List (Kind × String)} (h : ∀ p ∈ ps, p.1.Spells p.2)
    (hlen : (" ".intercalate (ps.map Prod.snd)).utf8ByteSize < 2 ^ 32) (script : String) :
    (scan script (" ".intercalate (ps.map Prod.snd))).1.map entry = ps ++ [(.eof, "")] ∧
      (scan script (" ".intercalate (ps.map Prod.snd))).2 = [] := by
  obtain ⟨ts, span, hscan, hmap, -⟩ := scan_spaced h hlen script
  have hentries : ts.map entry = ps := hmap
  rw [hscan, List.map_append, hentries]
  exact ⟨rfl, rfl⟩

/-- **Exactly texts of tokens are read back from themselves with a space between any two.** -/
theorem scan_spaced_iff (ps : List (Kind × String)) (script : String)
    (hlen : (" ".intercalate (ps.map Prod.snd)).utf8ByteSize < 2 ^ 32) :
    (∀ p ∈ ps, p.1.Spells p.2) ↔
      (scan script (" ".intercalate (ps.map Prod.snd))).1.map entry = ps ++ [(.eof, "")] ∧
        (scan script (" ".intercalate (ps.map Prod.snd))).2 = [] := by
  constructor
  · exact fun h => map_entry_spaced h hlen script
  · rintro ⟨htokens, -⟩ p hp
    rw [map_entry_scan] at htokens
    rw [← (List.append_inj' htokens rfl).1] at hp
    exact spells_of_mem_entries hlen hp

/-- Halves of comments and of longer operators, digits in front of a name, and a word that starts
with a keyword. -/
def mingled : List (Kind × String) :=
  [(.slash, "/"), (.star, "*"), (.colon, ":"), (.equalEqual, "=="), (.intLiteral, "007"),
    (.identifier, "x"), (.identifier, "is_"), (.less, "<"), (.equalEqual, "=="), (.slash, "/"),
    (.slash, "/")]

/-- Neither a comment nor a longer operator is made where a space stands. -/
theorem mingled_spaced :
    (" ".intercalate (mingled.map Prod.snd)).utf8ByteSize < 2 ^ 32 ∧
      (scan "a" "/ * : == 007 x is_ < == / /").1.map entry = mingled ++ [(.eof, "")] ∧
      (scan "a" "/ * : == 007 x is_ < == / /").2 = [] := by
  have hlen : (" ".intercalate (mingled.map Prod.snd)).utf8ByteSize < 2 ^ 32 := by decide
  have hnumber : Kind.intLiteral.Spells "007" := show Lexer.IsNumeral "007" by decide
  have hname : Kind.identifier.Spells "x" := show Lexer.IsIdentifier "x" by decide
  have hword : Kind.identifier.Spells "is_" := show Lexer.IsIdentifier "is_" by decide
  have hspells : ∀ p ∈ mingled, p.1.Spells p.2 := by
    simp only [mingled, List.forall_mem_cons]
    exact ⟨rfl, rfl, rfl, rfl, hnumber, hname, hword, rfl, rfl, rfl, rfl, by simp⟩
  exact ⟨hlen, (scan_spaced_iff mingled "a" hlen).mp hspells⟩

/-- A text with more bytes than there are offsets is the text of no token. -/
theorem lexeme_ne {script text s : String} (hs : 2 ^ 32 ≤ s.utf8ByteSize) {p : Kind × String}
    (h : p ∈ (scan script text).1.map entry) : p.2 ≠ s := by
  rintro rfl
  obtain ⟨t, ht, rfl⟩ := List.mem_map.mp h
  exact Nat.not_le_of_lt (utf8ByteSize_lexeme_lt t ht) hs

/-- **Behind 2³² bytes a list of tokens may be lost**: so many digits are read as another text. -/
theorem zeros_not_spaced :
    Kind.intLiteral.Spells (Lexer.zeros (2 ^ 32)) ∧
      (scan "a" (" ".intercalate [Lexer.zeros (2 ^ 32)])).1.map entry ≠
        [(.intLiteral, Lexer.zeros (2 ^ 32)), (.eof, "")] := by
  refine ⟨Lexer.spells_zeros (by decide), fun hback => ?_⟩
  have hmem := List.mem_cons_self (a := (Kind.intLiteral, Lexer.zeros (2 ^ 32))) (l := [(.eof, "")])
  rw [← hback] at hmem
  exact lexeme_ne (Lexer.utf8ByteSize_zeros _).ge hmem rfl

/-- **The tokens of a text are read back from themselves with single spaces.** -/
theorem scan_respaced {script text : String} (hlen : text.utf8ByteSize < 2 ^ 32)
    (hspaced : (" ".intercalate ((entries script text).map Prod.snd)).utf8ByteSize < 2 ^ 32) :
    (scan script (" ".intercalate ((entries script text).map Prod.snd))).1.map entry =
        (scan script text).1.map entry ∧
      (scan script (" ".intercalate ((entries script text).map Prod.snd))).2 = [] := by
  rw [map_entry_scan script text]
  exact map_entry_spaced (fun _ => spells_of_mem_entries hlen) hspaced script

end Token

end ProcScript
