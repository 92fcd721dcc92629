import Mathlib.Data.List.Basic
import ProcScript.Json
import ProcScript.Toml.Lexical

/-!
# JSON read back

**The text of a JSON value says the value** (`Json.ofText?_render`).  `Json.value` is a reader of
JSON: what a value is shows in its first character, blanks and line ends may stand between any two
tokens, and lists have a comma between any two items and none behind the last.  A reading stops
where a value ends, whatever follows, a digit behind a number apart; so the items of a list are
read one after the other (`Text.Scan.collect_flatMap`).  No value is nested deeper than its text is
long, which bounds the depth.
-/

namespace ProcScript

namespace Text.Scan

variable {α β : Type} {x : Scan α} {cs rest : List Char} {a : α}

/-! ### Readings that succeed -/

theorem bind_some {f : α → Scan β} (h : x cs = some (a, rest)) : (x >>= f) cs = f a rest := by
  change (x cs).bind (fun r => f r.1 r.2) = _
  rw [h]
  rfl

theorem map_some {f : α → β} (h : x cs = some (a, rest)) : (f <$> x) cs = some (f a, rest) := by
  change (x cs).bind (fun r => some (f r.1, r.2)) = _
  rw [h]
  rfl

theorem seqRight_some {y : Scan β} (h : x cs = some (a, rest)) : (x *> y) cs = y rest :=
  bind_some h

theorem seqLeft_some {y : Scan β} {b : β} {last : List Char} (h : x cs = some (a, rest))
    (hy : y rest = some (b, last)) : (x <* y) cs = some (a, last) :=
  (bind_some h).trans (bind_some hy)

theorem orElse_some {y : Scan α} (h : x cs = some (a, rest)) : (x <|> y) cs = some (a, rest) := by
  change (x cs <|> y cs) = _
  rw [h]
  rfl

theorem orElse_none {y : Scan α} (h : x cs = none) : (x <|> y) cs = y cs := by
  change (x cs <|> y cs) = _
  rw [h]
  rfl

theorem one_cons (c : Char) (cs : List Char) : one c (c :: cs) = some ((), cs) :=
  map_some (by rw [char, if_pos (by simp)])

theorem one_cons_of_ne {c d : Char} (h : d ≠ c) (cs : List Char) : one c (d :: cs) = none := by
  change (char (· == c) (d :: cs)).bind (fun r => some ((), r.2)) = _
  rw [char, if_neg (by simpa using h)]
  rfl

theorem times_char {p : Char → Bool} (rest : List Char) :
    (ds : List Char) → (∀ c ∈ ds, p c = true) →
      times ds.length (char p) (ds ++ rest) = some (ds, rest)
  | [],      _ => rfl
  | d :: ds, h => by
      have hd : char p (d :: (ds ++ rest)) = some (d, ds ++ rest) := by
        rw [char, if_pos (h d List.mem_cons_self)]
      have hds := times_char rest ds fun c hc => h c (List.mem_cons_of_mem d hc)
      rw [times, List.length_cons, List.replicate_succ, List.mapM_cons, List.cons_append,
        bind_some hd]
      exact bind_some hds

/-- No run of characters with `p` goes on here. -/
def Halts (p : Char → Bool) (rest : List Char) : Prop := ∀ c ∈ rest.head?, p c = false

theorem halts_cons {p : Char → Bool} {c : Char} (h : p c = false) (cs : List Char) :
    Halts p (c :: cs) := by
  rintro _ ⟨⟩
  exact h

theorem run_append {p : Char → Bool} (hcs : ∀ c ∈ cs, p c = true) (hrest : Halts p rest) :
    run p (cs ++ rest) = some (cs, rest) := by
  have hfront : rest.takeWhile p = [] ∧ rest.dropWhile p = rest := by
    cases rest with
    | nil => exact ⟨rfl, rfl⟩
    | cons c rest =>
        have hc : ¬p c = true := by simp [hrest c rfl]
        exact ⟨List.takeWhile_cons_of_neg hc, List.dropWhile_cons_of_neg hc⟩
  rw [run, List.takeWhile_append_of_pos hcs, List.dropWhile_append_of_pos hcs, hfront.1,
    hfront.2, List.append_nil]

/-! ### Repetitions -/

/-- A repetition reads texts that stand one behind the other, if each is read in front of what may
follow it and nothing is in front of the last. -/
theorem collect_flatMap {p : Scan α} {text : α → List Char} (follows : List Char → Prop)
    {last : List Char} (hlast : follows last) (hstop : p last = none) :
    (as : List α) →
      (∀ a ∈ as, text a ≠ [] ∧ (∀ rest, follows (text a ++ rest)) ∧
        ∀ rest, follows rest → p (text a ++ rest) = some (a, rest)) →
      collect p (as.flatMap text ++ last) = (as, last)
  | [],      _ => by
      rw [List.flatMap_nil, List.nil_append, collect, hstop]
  | a :: as, h => by
      obtain ⟨hne, -, hread⟩ := h a List.mem_cons_self
      have hrest : ∀ b ∈ as, text b ≠ [] ∧ (∀ rest, follows (text b ++ rest)) ∧
          ∀ rest, follows rest → p (text b ++ rest) = some (b, rest) :=
        fun b hb => h b (List.mem_cons_of_mem a hb)
      have hfollows : follows (as.flatMap text ++ last) := by
        cases as with
        | nil => exact hlast
        | cons b bs =>
            rw [List.flatMap_cons, List.append_assoc]
            exact (hrest b List.mem_cons_self).2.1 _
      have hshort : (as.flatMap text ++ last).length <
          (text a ++ (as.flatMap text ++ last)).length := by
        have := List.length_pos_iff.mpr hne
        simp only [List.length_append]
        omega
      rw [List.flatMap_cons, List.append_assoc, collect, hread _ hfollows]
      simp only [if_pos hshort, collect_flatMap follows hlast hstop as hrest]

end Text.Scan

namespace Json

open Text Scan

/-! ### A reader of JSON -/

/-- A character that may stand between two tokens. -/
def isGap (c : Char) : Bool := c == ' ' || c == '\n' || c == '\r' || c == '\t'

/-- What may stand between two tokens. -/
def gap : Scan Unit := discard (run isGap)

/-- The meaning of a character behind a backslash.  No character is made of two escapes. -/
def unescape : Char → Scan Char
  | '"'  => pure '"'
  | '\\' => pure '\\'
  | '/'  => pure '/'
  | 'b'  => pure '\x08'
  | 'f'  => pure '\x0c'
  | 'n'  => pure '\n'
  | 'r'  => pure '\r'
  | 't'  => pure '\t'
  | 'u'  => Toml.codePoint 4
  | _    => failure

/-- A character of a string. -/
def character : Scan Char
  | '\\' :: x :: cs => unescape x cs
  | c :: cs         => if c = '"' ∨ c.toNat < 0x20 then none else some (c, cs)
  | []              => none

/-- A string behind its first quote. -/
def stringTail : Scan String := do
  let cs ← many character
  one '"'
  return String.ofList cs

/-- A number, without zeros in front. -/
def natural : Scan Nat := do
  let ds ← run Char.isDigit
  if Nat.toDigits 10 (Nat.ofDigitChars 10 ds 0) = ds then return Nat.ofDigitChars 10 ds 0
  else failure

/-- What stands between two items. -/
def comma : Scan Unit := gap *> one ',' *> gap

/-- Items up to `closing`, with commas between any two. -/
def itemsTail {α : Type} (item : Scan α) (closing : Char) : Scan (List α) := do
  gap
  (one closing *> pure []) <|> (sepBy1 item comma <* gap <* one closing)

/-- A name and its value. -/
def member (value : Scan Json) : Scan (String × Json) := do
  one '"'
  let name ← stringTail
  gap
  one ':'
  gap
  return (name, ← value)

/-- A value whose parts are read by `value`. -/
def valueOf (value : Scan Json) : Scan Json
  | '"' :: cs    => (.string <$> stringTail) cs
  | '[' :: cs    => (.array <$> itemsTail value ']') cs
  | '\x7b' :: cs => (.object <$> itemsTail (member value) '\x7d') cs
  | 't' :: cs    => (word ['r', 'u', 'e'] *> pure (.bool true)) cs
  | 'f' :: cs    => (word ['a', 'l', 's', 'e'] *> pure (.bool false)) cs
  | cs           => (.number <$> natural) cs

/-- A value that is nested less than `depth` deep. -/
def value : (depth : Nat) → Scan Json
  | 0         => failure
  | depth + 1 => valueOf (value depth)

/-- The value that a text says. -/
def ofText? (text : String) : Option Json :=
  (gap *> value text.toList.length <* gap <* finish).run' text.toList

/-! ### Strings -/

theorem isHexDigit_digitChar : ∀ d < 16, Toml.isHexDigit d.digitChar = true := by decide

theorem hexValue_digitChar : ∀ d < 16, Toml.hexValue d.digitChar = d := by decide

theorem codePoint_hex4 {c : Char} (h : c.toNat < 0x10000) (rest : List Char) :
    Toml.codePoint 4 ((hex4 c.toNat).toList ++ rest) = some (c, rest) := by
  have hdigit (n : Nat) : n % 16 < 16 := Nat.mod_lt n (by decide)
  have hall : ∀ x ∈ (hex4 c.toNat).toList, Toml.isHexDigit x = true := by
    simp [hex4, isHexDigit_digitChar, hdigit]
  have hvalue : Toml.valueIn 16 (hex4 c.toNat).toList = c.toNat := by
    simp only [hex4, Toml.valueIn, String.toList_ofList, List.map_cons, List.map_nil,
      List.foldl_cons, List.foldl_nil, hexValue_digitChar _ (hdigit _)]
    omega
  have hlength : (hex4 c.toNat).toList.length = 4 := by simp [hex4]
  have hdigits := times_char rest _ hall
  rw [hlength] at hdigits
  rw [Toml.codePoint, bind_some hdigits, hvalue]
  have hvalid : c.toNat.isValidChar := c.valid
  rw [if_pos hvalid, Char.ofNat_toNat]
  rfl

theorem character_escape (c : Char) (rest : List Char) :
    character ((escape c).toList ++ rest) = some (c, rest) := by
  unfold escape
  split
  · subst_vars; rfl
  split
  · subst_vars; rfl
  split
  · subst_vars; rfl
  split
  · subst_vars; rfl
  split
  · subst_vars; rfl
  split
  · subst_vars; rfl
  split
  · subst_vars; rfl
  split
  · rename_i hlow
    rw [String.toList_append, List.append_assoc]
    exact codePoint_hex4 (by omega) rest
  · rename_i hquote hslash _ _ _ _ _ hlow
    simp only [String.toList_singleton, List.singleton_append]
    rw [character]
    · simp [hquote, hlow]
    · intro x cs
      simp [hslash]

theorem escape_ne_nil (c : Char) : (escape c).toList ≠ [] := by
  intro hnil
  have hread := character_escape c []
  rw [hnil] at hread
  cases hread

theorem toList_quote (s : String) :
    (quote s).toList = '"' :: (s.toList.flatMap (fun c => (escape c).toList) ++ ['"']) := by
  simp [quote, String.toList_join, List.flatMap_map]

/-- A string ends where its quotes end, whatever is in it and whatever follows. -/
theorem stringTail_quote (s : String) (rest : List Char) :
    stringTail (s.toList.flatMap (fun c => (escape c).toList) ++ '"' :: rest) = some (s, rest) := by
  have hcharacters : many character
      (s.toList.flatMap (fun c => (escape c).toList) ++ '"' :: rest) =
        some (s.toList, '"' :: rest) := by
    have hstop : character ('"' :: rest) = none := by
      rw [character] <;> simp
    rw [many, collect_flatMap (fun _ => True) trivial hstop s.toList
      fun c _ => ⟨escape_ne_nil c, fun _ => trivial, fun rest _ => character_escape c rest⟩]
  rw [stringTail, bind_some hcharacters, bind_some (one_cons '"' rest),
    String.ofList_toList]
  rfl

/-! ### Numbers -/

theorem natural_toString (n : Nat) {rest : List Char} (h : Halts Char.isDigit rest) :
    natural ((toString n).toList ++ rest) = some (n, rest) := by
  have hdigits : run Char.isDigit (Nat.toDigits 10 n ++ rest) = some (Nat.toDigits 10 n, rest) :=
    run_append (fun c hc => Nat.isDigit_of_mem_toDigits (by decide) (by decide) hc) h
  have htext : (toString n).toList = Nat.toDigits 10 n := Nat.toList_repr
  have hvalue : Nat.ofDigitChars 10 (Nat.toDigits 10 n) 0 = n :=
    Nat.ofDigitChars_toDigits (by decide) (by decide)
  rw [htext, natural, bind_some hdigits, hvalue, if_pos rfl]
  rfl

/-! ### Lists -/

theorem isGap_newLine (depth : Nat) : ∀ c ∈ (newLine depth).toList, isGap c = true := by
  intro c hc
  simp only [newLine, String.toList_append, String.toList_ofList, List.mem_append,
    List.mem_replicate] at hc
  rcases hc with hc | ⟨-, rfl⟩
  · simp at hc
    rw [hc]
    rfl
  · rfl

theorem gap_append {cs rest : List Char} (hcs : ∀ c ∈ cs, isGap c = true)
    (hrest : Halts isGap rest) : gap (cs ++ rest) = some ((), rest) :=
  map_some (run_append hcs hrest)

theorem gap_of_halts {rest : List Char} (h : Halts isGap rest) : gap rest = some ((), rest) := by
  change gap ([] ++ rest) = _
  exact gap_append (by simp) h

theorem isDigit_of_isGap {c : Char} (h : isGap c = true) : c.isDigit = false := by
  simp only [isGap, Bool.or_eq_true, beq_iff_eq] at h
  rcases h with ((rfl | rfl) | rfl) | rfl <;> rfl

/-- Between items, and behind the last, there is no digit. -/
theorem halts_isDigit_append {cs rest : List Char} (hcs : ∀ c ∈ cs, isGap c = true)
    (hrest : Halts Char.isDigit rest) : Halts Char.isDigit (cs ++ rest) := by
  cases cs with
  | nil => exact hrest
  | cons c cs => exact halts_cons (isDigit_of_isGap (hcs c List.mem_cons_self)) _

theorem intercalate_cons {α : Type} (sep : List α) (x : List α) (xs : List (List α)) :
    sep.intercalate (x :: xs) = x ++ xs.flatMap (sep ++ ·) := by
  induction xs generalizing x with
  | nil => simp
  | cons y ys ih => rw [List.intercalate_cons_cons, ih, List.flatMap_cons]; simp

/-- What is enclosed, behind its first bracket. -/
theorem toList_enclose (opening closing : String) (depth : Nat) (items : List String) :
    (enclose opening closing depth items).toList =
      opening.toList ++ (enclose "" closing depth items).toList := by
  cases items <;> simp [enclose]

theorem toList_enclose_cons (closing : String) (depth : Nat) (item : String)
    (items : List String) :
    (enclose "" closing depth (item :: items)).toList =
      (newLine (depth + 1)).toList ++ (item.toList ++
        (items.flatMap (fun i => ',' :: ((newLine (depth + 1)).toList ++ i.toList)) ++
          ((newLine depth).toList ++ closing.toList))) := by
  simp [enclose, intercalate_cons, List.flatMap_map]

/-- A comma and the line end behind it are passed over in front of an item. -/
theorem comma_cons {cs rest : List Char} (hcs : ∀ c ∈ cs, isGap c = true)
    (hrest : Halts isGap rest) : comma (',' :: (cs ++ rest)) = some ((), rest) := by
  have hgap : gap (',' :: (cs ++ rest)) = some ((), ',' :: (cs ++ rest)) :=
    gap_of_halts (halts_cons rfl _)
  exact (seqRight_some ((seqRight_some hgap).trans (one_cons ',' _))).trans (gap_append hcs hrest)

/-- There is no comma in front of a closing bracket. -/
theorem comma_closing {cs rest : List Char} {closing : Char} (hcs : ∀ c ∈ cs, isGap c = true)
    (hgap : isGap closing = false) (hcomma : closing ≠ ',') :
    comma (cs ++ closing :: rest) = none := by
  have hone : (gap *> one ',') (cs ++ closing :: rest) = none :=
    (seqRight_some (gap_append hcs (halts_cons hgap rest))).trans (one_cons_of_ne hcomma rest)
  change ((gap *> one ',') (cs ++ closing :: rest)).bind _ = none
  rw [hone]
  rfl

/-- The text of an item starts neither with a blank nor with `closing`. -/
def Opens (closing : Char) (text : List Char) : Prop :=
  ∃ c cs, text = c :: cs ∧ isGap c = false ∧ c ≠ closing

theorem Opens.halts {closing : Char} {text : List Char} (h : Opens closing text)
    (rest : List Char) : Halts isGap (text ++ rest) := by
  obtain ⟨c, cs, rfl, hc, -⟩ := h
  exact halts_cons hc _

section Items

variable {α : Type} {item : Scan α} {text : α → String} {closing : Char}
  (hgap : isGap closing = false) (hcomma : closing ≠ ',') (hdigit : closing.isDigit = false)

include hgap hcomma hdigit

/-- Behind an item, the others are read up to the bracket that closes them. -/
theorem many_comma {line last : List Char} (hline : ∀ c ∈ line, isGap c = true)
    (hlast : ∀ c ∈ last, isGap c = true) (rest : List Char) (as : List α)
    (hopens : ∀ a ∈ as, Opens closing (text a).toList)
    (hread : ∀ a ∈ as, ∀ rest, Halts Char.isDigit rest →
      item ((text a).toList ++ rest) = some (a, rest)) :
    many (comma *> item)
      (as.flatMap (fun a => ',' :: (line ++ (text a).toList)) ++ (last ++ closing :: rest)) =
        some (as, last ++ closing :: rest) := by
  have hstop : (comma *> item) (last ++ closing :: rest) = none := by
    change (comma (last ++ closing :: rest)).bind _ = none
    rw [comma_closing hlast hgap hcomma]
    rfl
  have hend : Halts Char.isDigit (last ++ closing :: rest) :=
    halts_isDigit_append hlast (halts_cons hdigit rest)
  have hitems : ∀ a ∈ as, ',' :: (line ++ (text a).toList) ≠ [] ∧
      (∀ rest, Halts Char.isDigit (',' :: (line ++ (text a).toList) ++ rest)) ∧
        ∀ rest, Halts Char.isDigit rest →
          (comma *> item) (',' :: (line ++ (text a).toList) ++ rest) = some (a, rest) := by
    refine fun a ha => ⟨List.cons_ne_nil _ _, fun rest => halts_cons rfl _, fun rest hrest => ?_⟩
    rw [List.cons_append, List.append_assoc]
    exact (seqRight_some (comma_cons hline ((hopens a ha).halts rest))).trans
      (hread a ha rest hrest)
  rw [many, collect_flatMap (Halts Char.isDigit) hend hstop as hitems]

/-- Items are read up to the bracket that closes them, if each is read in front of whatever is no
digit. -/
theorem itemsTail_enclose (depth : Nat) (as : List α)
    (hopens : ∀ a ∈ as, Opens closing (text a).toList)
    (hread : ∀ a ∈ as, ∀ rest, Halts Char.isDigit rest →
      item ((text a).toList ++ rest) = some (a, rest))
    (rest : List Char) :
    itemsTail item closing
      ((enclose "" (String.singleton closing) depth (as.map text)).toList ++ rest) =
        some (as, rest) := by
  cases as with
  | nil =>
      have hnone : (one closing *> pure []) (closing :: rest) = some (([] : List α), rest) :=
        seqRight_some (one_cons closing rest)
      rw [List.map_nil, enclose, String.empty_append, String.toList_singleton,
        List.singleton_append, itemsTail, bind_some (gap_of_halts (halts_cons hgap rest)),
        orElse_some hnone]
  | cons a as =>
      have hfirst := hopens a List.mem_cons_self
      have hline := isGap_newLine (depth + 1)
      have hlast := isGap_newLine depth
      have hmany := many_comma hgap hcomma hdigit hline hlast rest as
        (fun b hb => hopens b (List.mem_cons_of_mem a hb))
        fun b hb => hread b (List.mem_cons_of_mem a hb)
      rw [List.map_cons, toList_enclose_cons, List.flatMap_map]
      simp only [List.append_assoc, String.toList_singleton, List.singleton_append]
      generalize (newLine (depth + 1)).toList = line at hline hmany
      generalize (newLine depth).toList = last at hlast hmany
      generalize htail : as.flatMap (fun b => ',' :: (line ++ (text b).toList)) ++
        (last ++ closing :: rest) = tail at hmany
      have hitem : item ((text a).toList ++ tail) = some (a, tail) := by
        refine hread a List.mem_cons_self tail ?_
        rw [← htail]
        cases as with
        | nil =>
            rw [List.flatMap_nil, List.nil_append]
            exact halts_isDigit_append hlast (halts_cons hdigit rest)
        | cons b bs => exact halts_cons rfl _
      have hopen : (one closing *> pure ([] : List α)) ((text a).toList ++ tail) = none := by
        obtain ⟨c, cs, htext, -, hne⟩ := hfirst
        change (one closing ((text a).toList ++ tail)).bind _ = none
        rw [htext, List.cons_append, one_cons_of_ne hne]
        rfl
      have hitems : sepBy1 item comma ((text a).toList ++ tail) =
          some (a :: as, last ++ closing :: rest) :=
        (bind_some hitem).trans (bind_some hmany)
      rw [itemsTail, bind_some (gap_append hline (hfirst.halts tail)), orElse_none hopen]
      exact seqLeft_some (seqLeft_some hitems (gap_append hlast (halts_cons hgap rest)))
        (one_cons closing rest)

end Items

/-! ### Values -/

/-- The text of the value is read as the value, whatever follows; but a number is not over in front
of a digit. -/
def ReadsBack (j : Json) : Prop :=
  ∀ depth bound, (j.render depth).toList.length ≤ bound → ∀ rest, Halts Char.isDigit rest →
    value bound ((j.render depth).toList ++ rest) = some (j, rest)

theorem renderElements_eq_map (depth : Nat) (es : List Json) :
    renderElements depth es = es.map (render depth) := by
  induction es with
  | nil => rfl
  | cons e es ih => rw [renderElements, ih, List.map_cons]

/-- The text of a member. -/
def renderMember (depth : Nat) (m : String × Json) : String :=
  quote m.1 ++ ": " ++ m.2.render depth

theorem renderMembers_eq_map (depth : Nat) (ms : List (String × Json)) :
    renderMembers depth ms = ms.map (renderMember depth) := by
  induction ms with
  | nil => rfl
  | cons m ms ih =>
      obtain ⟨k, v⟩ := m
      rw [renderMembers, ih, List.map_cons]
      rfl

/-- A number starts with a digit. -/
theorem toList_render_number (n depth : Nat) :
    ∃ c cs, ((number n).render depth).toList = c :: cs ∧ c.isDigit = true := by
  have htext : ((number n).render depth).toList = Nat.toDigits 10 n := Nat.toList_repr
  rw [htext]
  cases hdigits : Nat.toDigits 10 n with
  | nil => exact absurd hdigits Nat.toDigits_ne_nil
  | cons c cs =>
      refine ⟨c, cs, rfl, Nat.isDigit_of_mem_toDigits (b := 10) (n := n) (by decide) (by decide) ?_⟩
      rw [hdigits]
      exact List.mem_cons_self

theorem opens_render (j : Json) (depth : Nat) : Opens ']' (j.render depth).toList := by
  cases j with
  | bool b =>
      cases b
      · exact ⟨'f', ['a', 'l', 's', 'e'], by simp [render], rfl, by decide⟩
      · exact ⟨'t', ['r', 'u', 'e'], by simp [render], rfl, by decide⟩
  | number n =>
      obtain ⟨c, cs, htext, hc⟩ := toList_render_number n depth
      refine ⟨c, cs, htext, ?_, ?_⟩
      · by_contra hgap
        rw [isDigit_of_isGap (by simpa using hgap)] at hc
        cases hc
      · rintro rfl
        cases hc
  | string s => exact ⟨'"', _, by rw [render, toList_quote], rfl, by decide⟩
  | array es => exact ⟨'[', _, by rw [render, toList_enclose]; rfl, rfl, by decide⟩
  | object ms => exact ⟨'\x7b', _, by rw [render, toList_enclose]; rfl, rfl, by decide⟩

/-- Each item is shorter than what encloses it. -/
theorem length_lt_enclose {opening : String} (hopening : opening ≠ "") (closing : String)
    (depth : Nat) {item : String} {items : List String} (h : item ∈ items) :
    item.toList.length < (enclose opening closing depth items).toList.length := by
  have hopening : 0 < opening.toList.length :=
    List.length_pos_iff.mpr fun hnil => hopening (String.toList_eq_nil_iff.mp hnil)
  cases items with
  | nil => cases h
  | cons first items =>
      rw [toList_enclose, toList_enclose_cons]
      simp only [List.length_append]
      rcases List.mem_cons.mp h with rfl | hitem
      · omega
      · have := (List.sublist_flatten_of_mem (List.mem_map_of_mem
          (f := fun i => ',' :: ((newLine (depth + 1)).toList ++ i.toList)) hitem)).length_le
        rw [← List.flatMap_def] at this
        simp only [List.length_cons, List.length_append] at this
        omega

/-- It is enough to read a value by its first character, its parts less deep by one. -/
theorem readsBack_of {j : Json} (h : ∀ depth bound, (j.render depth).toList.length ≤ bound + 1 →
    ∀ rest, Halts Char.isDigit rest →
      valueOf (value bound) ((j.render depth).toList ++ rest) = some (j, rest)) : ReadsBack j := by
  intro depth bound hbound rest hrest
  cases bound with
  | zero =>
      obtain ⟨c, cs, htext, -⟩ := opens_render j depth
      simp [htext] at hbound
  | succ bound => exact h depth bound hbound rest hrest

theorem readsBack_number (n : Nat) : ReadsBack (number n) := by
  refine readsBack_of fun depth bound _ rest hrest => ?_
  obtain ⟨c, cs, htext, hc⟩ := toList_render_number n depth
  have hnumber := map_some (f := number) (natural_toString n hrest)
  have htext' : (toString n).toList = c :: cs := htext
  rw [htext'] at hnumber
  rw [htext, List.cons_append, valueOf]
  · exact hnumber
  all_goals
    rintro _ ⟨rfl⟩
    cases hc

theorem toList_renderMember (m : String × Json) (depth : Nat) :
    (renderMember depth m).toList =
      '"' :: (m.1.toList.flatMap (fun c => (escape c).toList) ++
        '"' :: ':' :: ' ' :: (m.2.render depth).toList) := by
  simp [renderMember, toList_quote]

theorem opens_renderMember (m : String × Json) (depth : Nat) :
    Opens '\x7d' (renderMember depth m).toList :=
  ⟨'"', _, toList_renderMember m depth, rfl, by decide⟩

theorem member_renderMember {m : String × Json} (h : ReadsBack m.2) {depth bound : Nat}
    (hbound : (renderMember depth m).toList.length ≤ bound) (rest : List Char)
    (hrest : Halts Char.isDigit rest) :
    member (value bound) ((renderMember depth m).toList ++ rest) = some (m, rest) := by
  rw [toList_renderMember] at hbound ⊢
  simp only [List.length_cons, List.length_append] at hbound
  simp only [List.cons_append, List.append_assoc]
  have hvalue := h depth bound (by omega) rest hrest
  have hblank : ∀ c ∈ [' '], isGap c = true := by simp [isGap]
  have hgap : gap (' ' :: ((m.2.render depth).toList ++ rest)) =
      some ((), (m.2.render depth).toList ++ rest) :=
    gap_append hblank ((opens_render m.2 depth).halts rest)
  rw [member, bind_some (one_cons '"' _), bind_some (stringTail_quote _ _),
    bind_some (gap_of_halts (halts_cons rfl _)), bind_some (one_cons ':' _), bind_some hgap,
    bind_some hvalue]
  rfl

mutual

theorem value_render : (j : Json) → ReadsBack j
  | bool b    => readsBack_of fun depth bound _ rest _ => by
      cases b
      · have htext : ((bool false).render depth).toList = ['f', 'a', 'l', 's', 'e'] := by
          simp [render]
        rw [htext]
        rfl
      · have htext : ((bool true).render depth).toList = ['t', 'r', 'u', 'e'] := by simp [render]
        rw [htext]
        rfl
  | number n  => readsBack_number n
  | string s  => readsBack_of fun depth bound _ rest _ => by
      rw [render, toList_quote, List.cons_append, List.append_assoc]
      exact map_some (stringTail_quote s rest)
  -- The parts are shorter by the brackets, so the bound for them is less by one.
  | array es  => readsBack_of fun depth bound hbound rest hrest => by
      have hparts := values_render es
      rw [render, renderElements_eq_map] at hbound ⊢
      rw [toList_enclose, List.append_assoc]
      refine map_some (itemsTail_enclose rfl (by decide) rfl depth es
        (fun e _ => opens_render e (depth + 1)) (fun e he => ?_) rest)
      have hlength : (e.render (depth + 1)).toList.length <
          (enclose "[" "]" depth (es.map (render (depth + 1)))).toList.length :=
        length_lt_enclose (by decide) "]" depth (List.mem_map_of_mem he)
      exact hparts e he (depth + 1) bound (by omega)
  | object ms => readsBack_of fun depth bound hbound rest hrest => by
      have hparts := members_render ms
      rw [render, renderMembers_eq_map] at hbound ⊢
      rw [toList_enclose, List.append_assoc]
      refine map_some (itemsTail_enclose rfl (by decide) rfl depth ms
        (fun m _ => opens_renderMember m (depth + 1)) (fun m hm => ?_) rest)
      have hlength : (renderMember (depth + 1) m).toList.length <
          (enclose "\x7b" "\x7d" depth (ms.map (renderMember (depth + 1)))).toList.length :=
        length_lt_enclose (by decide) "\x7d" depth (List.mem_map_of_mem hm)
      exact member_renderMember (hparts m hm) (by omega)

theorem values_render : (es : List Json) → ∀ e ∈ es, ReadsBack e
  | []      => by simp
  | e :: es => List.forall_mem_cons.mpr ⟨value_render e, values_render es⟩

theorem members_render : (ms : List (String × Json)) → ∀ m ∈ ms, ReadsBack m.2
  | []           => by simp
  | (k, v) :: ms => List.forall_mem_cons.mpr ⟨value_render v, members_render ms⟩

end

/-- **A value is read back from its text**, which may have a line end behind it. -/
theorem ofText?_render (j : Json) (depth : Nat) : ofText? (j.render depth ++ "\n") = some j := by
  have htext : (j.render depth ++ "\n").toList = (j.render depth).toList ++ ['\n'] := by
    simp
  have hstart := gap_of_halts ((opens_render j depth).halts ['\n'])
  have hvalue := value_render j depth (j.render depth ++ "\n").toList.length
    (by simp [htext]) ['\n'] (halts_cons rfl [])
  have hread : (gap *> value (j.render depth ++ "\n").toList.length <* gap <* finish)
      (j.render depth ++ "\n").toList = some (j, []) := by
    rw [htext] at hvalue ⊢
    exact seqLeft_some (seqLeft_some ((seqRight_some hstart).trans hvalue) rfl) rfl
  exact congrArg (Option.map Prod.fst) hread

/-- Other layouts are read too, and a comma behind the last item is not. -/
example : ofText? " [ 1,\x7b\"a\\u0041\" :true\x7d] " =
      some (.array [.number 1, .object [("aA", .bool true)]]) ∧ ofText? "[1,]" = none := by
  constructor <;> cbv

end Json

end ProcScript
