import ProcScript.Proofs.Syntax.Ends
import ProcScript.Proofs.Syntax.Passage

/-!
# Syntax — what a reading keeps

A reading turns the tokens it passes into a tree, and the words of the tree are what it keeps
of them.  `Kept ws ts ds` is the bargain between the three: the words kept are a sublist of the
words passed, and they are all of them exactly if nothing but literals out of range was found.
`Trail` is a passage that keeps its bargain, and `Strays` is one on which something else was
found.  `Outcome.Reads` says of a reading that its value is what its trail keeps and that it
fails only astray; it is closed under the combinators of readings, so a reader is shown to meet
it by following its definition.
-/

namespace ProcScript

/-- It is an integer literal out of range. -/
def Diagnostic.IsOutOfRange (d : Diagnostic) : Prop :=
  ∃ lexeme loc, d = .syntaxError (.outOfRange lexeme) loc

/-- If it is an integer literal, it is in range. -/
def Token.Readable (t : Token) : Prop :=
  t.kind = .intLiteral → (Text.int32? t.lexeme).isSome

/-- Of the tokens `ts` the words `ws` are kept where `ds` is found. -/
structure Kept (ws : List Word) (ts : List Token) (ds : List Diagnostic) : Prop where
  sublist : ws.Sublist (ts.map Token.word)
  whole : ws = ts.map Token.word ↔ ∀ d ∈ ds, d.IsOutOfRange
  readable : ds = [] → ∀ t ∈ ts, t.Readable

namespace Kept

variable {t : Token} {ts us : List Token} {ws vs : List Word} {ds es : List Diagnostic}

theorem nil : Kept [] [] [] := by
  refine ⟨.slnil, ?_, ?_⟩ <;> simp

/-- A token is kept. -/
theorem token (h : t.Readable) : Kept [t.word] [t] [] := by
  refine ⟨.refl _, ?_, ?_⟩ <;> simp [h]

/-- A literal out of range is kept as the number 0. -/
theorem zero {loc : Span} (hk : t.kind = .intLiteral) (h : Text.int32? t.lexeme = none) :
    Kept [.int 0] [t] [.syntaxError (.outOfRange t.lexeme) loc] := by
  have hw : t.word = .int 0 := by rw [Token.word_of_intLiteral hk, h]; rfl
  refine ⟨by simp [hw], ?_, ?_⟩
  · simp [hw, Diagnostic.IsOutOfRange]
  · simp

/-- Nothing is kept of tokens on which something else than a literal out of range was found. -/
theorem dropped (ht : ts ≠ []) (hd : ∃ d ∈ ds, ¬ d.IsOutOfRange) : Kept [] ts ds := by
  obtain ⟨d, hd, hn⟩ := hd
  refine ⟨List.nil_sublist _, ?_, ?_⟩
  · constructor
    · intro h
      exact absurd (List.map_eq_nil_iff.mp h.symm) ht
    · intro h
      exact absurd (h d hd) hn
  · rintro rfl
    cases hd

theorem append (h : Kept ws ts ds) (h' : Kept vs us es) :
    Kept (ws ++ vs) (ts ++ us) (ds ++ es) := by
  refine ⟨?_, ?_, ?_⟩
  · rw [List.map_append]
    exact h.sublist.append h'.sublist
  · rw [List.map_append, List.forall_mem_append, ← h.whole, ← h'.whole]
    constructor
    · intro heq
      -- Neither part can make up for what the other one lacks.
      have hl := congrArg List.length heq
      have hw := h.sublist.length_le
      have hv := h'.sublist.length_le
      rw [List.length_append, List.length_append] at hl
      exact List.append_inj heq (by omega)
    · rintro ⟨rfl, rfl⟩
      rfl
  · intro hnil
    obtain ⟨hd, he⟩ := List.append_eq_nil_iff.mp hnil
    rw [List.forall_mem_append]
    exact ⟨h.readable hd, h'.readable he⟩

end Kept

namespace Reader

/-- From `r` to `s` the words `ws` are kept. -/
def Trail (r s : Reader) (ws : List Word) : Prop :=
  ∃ ts ds, r.Passes s ts ds ∧ Kept ws ts ds

/-- From `r` to `s` something else is found than literals out of range. -/
def Strays (r s : Reader) : Prop :=
  ∃ ts ds, r.Passes s ts ds ∧ ∃ d ∈ ds, ¬ d.IsOutOfRange

variable {r s u : Reader} {t : Token} {ts : List Token} {ws vs : List Word}

theorem Trail.refl (r : Reader) : r.Trail r [] :=
  ⟨[], [], .refl r, .nil⟩

theorem Trail.trans (h : r.Trail s ws) (h' : s.Trail u vs) : r.Trail u (ws ++ vs) := by
  obtain ⟨ts, ds, hp, hk⟩ := h
  obtain ⟨us, es, hp', hk'⟩ := h'
  exact ⟨ts ++ us, ds ++ es, hp.trans hp', hk.append hk'⟩

theorem Strays.of_passes {ds : List Diagnostic} (hp : r.Passes s ts ds) (h : s.Strays u) :
    r.Strays u := by
  obtain ⟨us, es, hp', d, hd, hn⟩ := h
  exact ⟨ts ++ us, ds ++ es, hp.trans hp', d, List.mem_append_right ds hd, hn⟩

theorem Trail.strays (h : r.Trail s ws) (h' : s.Strays u) : r.Strays u := by
  obtain ⟨ts, ds, hp, -⟩ := h
  exact .of_passes hp h'

theorem Strays.passes {ds : List Diagnostic} (h : r.Strays s) (hp : s.Passes u ts ds) :
    r.Strays u := by
  obtain ⟨us, es, hp', d, hd, hn⟩ := h
  exact ⟨us ++ ts, es ++ ds, hp'.trans hp, d, List.mem_append_left ds hd, hn⟩

/-- What strays over a token at least keeps nothing. -/
theorem Strays.trail (h : r.Strays s) (hlt : s.rest.length < r.rest.length) : r.Trail s [] := by
  obtain ⟨ts, ds, hp, hd⟩ := h
  refine ⟨ts, ds, hp, .dropped ?_ hd⟩
  rintro rfl
  rw [hp.rest] at hlt
  simp at hlt

theorem Passes.trail (h : r.Passes s [t] []) (ht : t.Readable) : r.Trail s [t.word] :=
  ⟨[t], [], h, .token ht⟩

theorem Passes.trail_kind {kind : Kind} (h : r.Passes s [t] []) (hk : t.kind = kind)
    (hf : kind.IsFixed) : r.Trail s [.kind kind] := by
  rw [← Token.word_of_kind hk hf]
  exact h.trail fun hi => absurd (hk.symm.trans hi) hf.1

theorem Passes.trail_name (h : r.Passes s [t] []) (hk : t.kind = .identifier) :
    r.Trail s [.name t.lexeme] := by
  rw [← Token.word_of_identifier hk]
  exact h.trail fun hi => by simp [hk] at hi

theorem strays_report (r : Reader) {error : SyntaxError} (loc : Span)
    (h : ∀ lexeme, error ≠ .outOfRange lexeme) : r.Strays (r.report error loc) := by
  refine ⟨[], _, .report r error loc, _, List.mem_singleton_self _, ?_⟩
  rintro ⟨lexeme, loc', heq⟩
  exact h lexeme (by cases heq; rfl)

end Reader

/-! ### Readings -/

namespace Outcome

variable {α β : Type} {m n : Nat} {r s : Reader} {w : α → List Word} {v : β → List Word}

/-- A reading from `r` that keeps the words of its value and fails only astray. -/
def Reads (o : Outcome α n) (r : Reader) (words : α → List Word) : Prop :=
  o.Ends (fun a s => r.Trail s (words a)) r.Strays

theorem Reads.mono {o : Outcome α m} (h : o.Reads r w) (hle : m ≤ n) : (o.mono hle).Reads r w :=
  Ends.mono h hle

theorem Reads.past {o : Outcome α m} (h : o.Reads r w) (hlt : m < n) : (o.past hlt).Reads r w :=
  Ends.past h hlt

theorem Reads.map {o : Outcome α n} {f : α → β} (h : o.Reads r w) (hf : ∀ a, v (f a) = w a) :
    (o.map f).Reads r v := by
  refine Ends.map (Ends.imp h (fun a s ht => ?_) fun _ => id)
  rw [hf a]
  exact ht

theorem Reads.bind {o : Outcome α n}
    {k : α → (s : Reader) → s.rest.length < n → Outcome β s.rest.length} (h : o.Reads r w)
    (hk : ∀ a s hs, r.Trail s (w a) → (k a s hs).Reads r v) : (o.bind k).Reads r v :=
  Ends.bind h hk

/-- A node keeps its words whatever its number is. -/
theorem Reads.number {o : Outcome (ExprId → Expr) n}
    (h : ∀ id, o.Reads r fun node => (node id).words) : o.number.Reads r Expr.words := by
  cases o with
  | ok node s hs =>
      have ht := Reader.Trail.trans (h s.nextId) ⟨[], [], .nextId s (s.nextId + 1), .nil⟩
      rw [List.append_nil] at ht
      exact ht
  | fail s hs => exact h 0

/-- What is read where a trail ends is read from where it began. -/
theorem Reads.behind {o : Outcome α n} {ws : List Word} (h : o.Reads s w) (ht : r.Trail s ws) :
    o.Reads r fun a => ws ++ w a :=
  Ends.imp h (fun _ _ => ht.trans) fun _ => ht.strays

end Outcome

end ProcScript
