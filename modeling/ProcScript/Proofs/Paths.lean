import Mathlib.Data.List.Infix
import ProcScript.Path

/-!
# Paths

The components of a path are its start, if that is written, and the parts that lead somewhere.  A
path without its last part has all components but the last one, so `Path.ancestors` runs through
the starts of the list of components, longest first, down to the empty one or the root
(`Path.ancestors_components`), and each is written as the path itself begins
(`Path.render_prefix_of_mem_ancestors`).

The other direction is about texts.  A slash between two texts puts their parts behind each other
(`Path.split_append_slash`), so the text that `Path.join` makes is read with the name as one more
component (`Path.components_join`).  That needs a path that can be read from a text at all
(`Path.WellFormed`): one whose parts hold no slash, and whose first part does not look like the
start of another kind of path.
-/

namespace ProcScript

/-- The component that a start is, if it is written. -/
def Anchor.components : Anchor → List String
  | .work => []
  | .here => ["."]
  | .root => ["/"]

namespace Path

variable {p q : Path} {name : String}

/-- The parts that lead somewhere, first one first. -/
def names (p : Path) : List String := (p.parts.filter fun part => !isVoid part).reverse

/-- The start, if it is written, and the parts that lead somewhere. -/
def components (p : Path) : List String := p.anchor.components ++ p.names

/-! ### Without the last part -/

theorem filter_dropWhile_isVoid (parts : List String) :
    ((parts.dropWhile isVoid).filter fun part => !isVoid part) =
      parts.filter fun part => !isVoid part := by
  induction parts with
  | nil => rfl
  | cons part parts ih => cases h : isVoid part <;> simp [h, ih]

/-- What leads nowhere is passed over before and behind the part that is taken off; where there
is no part, the written start of a path from here is taken off. -/
theorem parent?_eq_some (h : p.parent? = some q) :
    (∃ part rest, p.parts.dropWhile isVoid = part :: rest ∧ isVoid part = false ∧
      q = ⟨p.anchor, rest.dropWhile isVoid⟩) ∨
    p.names = [] ∧ p.anchor = .here ∧ q = ⟨.work, []⟩ := by
  rcases hparts : p.parts.dropWhile isVoid with _ | ⟨part, rest⟩
  · have hnames : p.names = [] := by
      rw [names, ← filter_dropWhile_isVoid, hparts]
      rfl
    by_cases hhere : p.anchor = .here
    · exact .inr ⟨hnames, hhere, by simpa [parent?, hparts, hhere] using h.symm⟩
    · simp [parent?, hparts, hhere] at h
  · have hpart := List.head_dropWhile_not isVoid (l := p.parts) (by simp [hparts])
    exact .inl ⟨part, rest, rfl, by simpa [hparts] using hpart,
      by simpa [parent?, hparts] using h.symm⟩

theorem components_of_parent? (h : p.parent? = some q) :
    ∃ c, p.components = q.components ++ [c] := by
  rcases parent?_eq_some h with ⟨part, rest, hparts, hpart, rfl⟩ | ⟨hnames, hhere, rfl⟩
  · refine ⟨part, ?_⟩
    simp only [components, names, filter_dropWhile_isVoid]
    rw [← filter_dropWhile_isVoid, hparts, List.filter_cons_of_pos (by simp [hpart]),
      List.reverse_cons, List.append_assoc]
  · exact ⟨".", by rw [components, hnames, hhere]; rfl⟩

/-- Only the root and the empty path have nothing to take off. -/
theorem components_of_parent?_eq_none (h : p.parent? = none) :
    p.components = p.anchor.components ∧ p.anchor ≠ .here := by
  rw [parent?] at h
  split at h
  · cases h
  · rename_i hparts
    refine ⟨?_, fun hhere => by simp [hhere] at h⟩
    rw [components, names, ← filter_dropWhile_isVoid, hparts]
    exact List.append_nil _

theorem anchor_of_parent? (h : p.parent? = some q) : q.anchor = .root ↔ p.anchor = .root := by
  rcases parent?_eq_some h with ⟨part, rest, -, -, rfl⟩ | ⟨-, hhere, rfl⟩
  · rfl
  · simp [hhere]

/-- What is above a path has its start and its first parts, or is the working directory. -/
theorem suffix_of_parent? (h : p.parent? = some q) :
    q = ⟨.work, []⟩ ∨ q.anchor = p.anchor ∧ q.parts <:+ p.parts := by
  rcases parent?_eq_some h with ⟨part, rest, hparts, -, rfl⟩ | ⟨-, -, hq⟩
  · exact .inr ⟨rfl, (List.dropWhile_suffix isVoid).trans
      ((List.suffix_cons part rest).trans (hparts ▸ List.dropWhile_suffix isVoid))⟩
  · exact .inl hq

/-! ### A path and what is above it -/

/-- The starts of a path's list of components that are paths of its kind, longest first: with
nothing before a slash there is still the root. -/
def prefixes (p : Path) : List (List String) :=
  (p.components.inits.filter fun cs => p.anchor ≠ .root ∨ cs ≠ []).reverse

theorem mem_prefixes {cs : List String} :
    cs ∈ p.prefixes ↔ cs <+: p.components ∧ (p.anchor = .root → cs ≠ []) := by
  simp only [prefixes, List.mem_reverse, List.mem_filter, List.mem_inits, decide_eq_true_eq,
    imp_iff_not_or, ne_eq]

theorem prefixes_of_parent? (h : p.parent? = some q) :
    p.prefixes = p.components :: q.prefixes := by
  obtain ⟨c, hc⟩ := components_of_parent? h
  simp only [prefixes, hc, List.inits_append, List.filter_append, ne_eq, ← anchor_of_parent? h]
  simp

theorem prefixes_of_parent?_eq_none (h : p.parent? = none) : p.prefixes = [p.components] := by
  obtain ⟨hcomponents, hhere⟩ := components_of_parent?_eq_none h
  rw [prefixes, hcomponents]
  cases ha : p.anchor with
  | work => rfl
  | here => exact absurd ha hhere
  | root => rfl

/-- **A path and what is above it are the starts of its components**, longest first. -/
theorem ancestors_components (p : Path) : p.ancestors.map components = p.prefixes := by
  fun_induction ancestors p with
  | case1 p hnone => exact (prefixes_of_parent?_eq_none hnone).symm
  | case2 p q hq ih => rw [List.map_cons, ih, prefixes_of_parent? hq]

/-- A path's list of components gets shorter from one directory to the one above it. -/
theorem pairwise_ancestors (p : Path) :
    p.ancestors.Pairwise fun q r => r.components.length < q.components.length := by
  fun_induction ancestors p with
  | case1 p hnone => exact List.pairwise_singleton ..
  | case2 p q hq ih =>
      refine List.pairwise_cons.mpr ⟨fun r hr => ?_, ih⟩
      obtain ⟨c, hc⟩ := components_of_parent? hq
      have hprefix : r.components ∈ q.prefixes :=
        ancestors_components q ▸ List.mem_map_of_mem hr
      have hle := (mem_prefixes.mp hprefix).1.length_le
      rw [hc, List.length_append, List.length_singleton]
      exact Nat.lt_succ_of_le hle

/-! ### Texts of paths -/

theorem unsplit_prefix_unsplit_append (ps qs : List (List Char)) :
    unsplit ps <+: unsplit (ps ++ qs) := by
  induction ps with
  | nil => exact List.nil_prefix
  | cons p ps ih =>
      rcases ps with _ | ⟨r, ps⟩
      · rcases qs with _ | ⟨r, qs⟩
        · exact List.prefix_refl _
        · exact List.prefix_append _ _
      · exact (List.prefix_append_right_inj p).mpr (List.cons_prefix_cons.mpr ⟨rfl, ih⟩)

theorem toList_render (p : Path) :
    p.render.toList = p.anchor.chars ++ unsplit (p.parts.reverse.map String.toList) := by
  rw [render, String.toList_ofList]

theorem render_prefix_of_parent? (h : p.parent? = some q) :
    q.render.toList <+: p.render.toList := by
  rcases suffix_of_parent? h with rfl | ⟨hanchor, taken, htaken⟩
  · exact List.nil_prefix
  · rw [toList_render, toList_render, ← htaken, List.reverse_append, List.map_append, hanchor]
    exact (List.prefix_append_right_inj _).mpr (unsplit_prefix_unsplit_append ..)

/-- What is above a path is written as the path begins. -/
theorem render_prefix_of_mem_ancestors (h : q ∈ p.ancestors) :
    q.render.toList <+: p.render.toList := by
  fun_induction ancestors p with
  | case1 p hnone =>
      obtain rfl := List.mem_singleton.mp h
      exact List.prefix_refl _
  | case2 p r hr ih =>
      rcases List.mem_cons.mp h with rfl | hq
      · exact List.prefix_refl _
      · exact (ih hq).trans (render_prefix_of_parent? hr)

/-! ### The parts of a text -/

theorem split_append_slash (cs ds : List Char) :
    split (cs ++ '/' :: ds) = split cs ++ split ds := by
  induction cs with
  | nil => simp [split]
  | cons c cs ih =>
      simp only [List.cons_append, split, ih]
      split
      · rfl
      · rcases h : split cs with _ | ⟨p, ps⟩
        · exact absurd h (split_ne_nil cs)
        · rfl

theorem split_of_notMem {cs : List Char} (h : '/' ∉ cs) : split cs = [cs] := by
  induction cs with
  | nil => rfl
  | cons c cs ih =>
      rw [List.mem_cons, not_or] at h
      rw [split, if_neg (Ne.symm h.1), ih h.2]

theorem split_unsplit {parts : List (List Char)} (hne : parts ≠ [])
    (h : ∀ part ∈ parts, '/' ∉ part) : split (unsplit parts) = parts := by
  induction parts with
  | nil => exact absurd rfl hne
  | cons part parts ih =>
      have hpart := split_of_notMem (h part (List.mem_cons_self ..))
      rcases parts with _ | ⟨other, parts⟩
      · exact hpart
      · rw [unsplit, split_append_slash, hpart,
          ih (List.cons_ne_nil other parts) fun part hp => h part (List.mem_cons_of_mem _ hp)]
        rfl

theorem notMem_of_mem_split {cs part : List Char} (h : part ∈ split cs) : '/' ∉ part := by
  induction cs generalizing part with
  | nil =>
      obtain rfl := List.mem_singleton.mp h
      exact List.not_mem_nil
  | cons c cs ih =>
      rw [split] at h
      split at h
      · rcases List.mem_cons.mp h with rfl | hpart
        · exact List.not_mem_nil
        · exact ih hpart
      · rename_i hc
        rcases hs : split cs with _ | ⟨first, rest⟩
        · exact absurd hs (split_ne_nil cs)
        · rw [hs] at h ih
          rcases List.mem_cons.mp h with rfl | hpart
          · exact List.not_mem_cons_of_ne_of_not_mem (Ne.symm hc) (ih (List.mem_cons_self ..))
          · exact ih (List.mem_cons_of_mem _ hpart)

theorem isVoid_iff {part : String} : isVoid part ↔ part.toList = [] ∨ part.toList = ['.'] := by
  rw [isVoid, Bool.or_eq_true, beq_iff_eq, beq_iff_eq, ← String.toList_inj, ← String.toList_inj]
  rfl

/-- The parts of a text that lead somewhere. -/
def namesOf (cs : List Char) : List String :=
  ((split cs).map String.ofList).filter fun part => !isVoid part

theorem namesOf_append_slash (cs ds : List Char) :
    namesOf (cs ++ '/' :: ds) = namesOf cs ++ namesOf ds := by
  simp only [namesOf, split_append_slash, List.map_append, List.filter_append]

theorem namesOf_cons_slash (cs : List Char) : namesOf ('/' :: cs) = namesOf cs :=
  namesOf_append_slash [] cs

theorem namesOf_dot_slash (cs : List Char) : namesOf ('.' :: '/' :: cs) = namesOf cs :=
  namesOf_append_slash ['.'] cs

/-- What a text starts from: the root if it starts with a slash, and else what its first part
says. -/
def anchorOf (cs : List Char) : Anchor :=
  if cs.head? = some '/' then .root
  else if (split cs).head? = some ['.'] then .here
  else .work

theorem anchorOf_append_slash {cs : List Char} (hcs : cs ≠ []) (ds : List Char) :
    anchorOf (cs ++ '/' :: ds) = anchorOf cs := by
  rw [anchorOf, split_append_slash, List.head?_append_of_ne_nil _ hcs,
    List.head?_append_of_ne_nil _ (split_ne_nil cs), anchorOf]

/-- A first part that leads somewhere is no start. -/
theorem anchorOf_of_head?_split {cs part : List Char} (h : (split cs).head? = some part)
    (hvoid : isVoid (String.ofList part) = false) : anchorOf cs = .work := by
  have hpart : part ≠ [] ∧ part ≠ ['.'] := by
    simpa [isVoid_iff] using Bool.eq_false_iff.mp hvoid
  have hslash : cs.head? ≠ some '/' := fun hcs => by
    obtain ⟨ds, rfl⟩ := List.head?_eq_some_iff.mp hcs
    exact hpart.1 (Option.some.inj h).symm
  have hdot : (split cs).head? ≠ some ['.'] := fun hcs =>
    hpart.2 (Option.some.inj (h.symm.trans hcs))
  rw [anchorOf, if_neg hslash, if_neg hdot]

/-! ### Reading a text -/

/-- A text is its first part, or goes on with a slash behind it. -/
theorem eq_of_head?_split {cs part : List Char} (h : (split cs).head? = some part) :
    cs = part ∨ ∃ ds, cs = part ++ '/' :: ds := by
  have hcs := unsplit_split cs
  rcases hs : split cs with _ | ⟨first, _ | ⟨other, rest⟩⟩
  · exact absurd hs (split_ne_nil cs)
  · rw [hs] at h hcs
    exact .inl (hcs.symm.trans (Option.some.inj h))
  · rw [hs] at h hcs
    obtain rfl := Option.some.inj h
    exact .inr ⟨_, hcs.symm⟩

theorem anchor_ofString (s : String) : (ofString s).anchor = anchorOf s.toList := by
  unfold ofString
  split
  case h_1 h => rw [h]; rfl
  case h_2 cs h => rw [h]; rfl
  case h_3 h => rw [h]; rfl
  case h_4 cs h => rw [h]; rfl
  case h_5 hnil hroot hhere hhere' =>
    have hslash : s.toList.head? ≠ some '/' := fun h =>
      let ⟨ds, hds⟩ := List.head?_eq_some_iff.mp h
      hroot ds hds
    have hdot : (split s.toList).head? ≠ some ['.'] := fun h => by
      rcases eq_of_head?_split h with hs | ⟨ds, hs⟩
      · exact hhere hs
      · exact hhere' ds hs
    rw [anchorOf, if_neg hslash, if_neg hdot]

/-- Whatever a text starts from is a part that leads nowhere. -/
theorem names_ofString (s : String) : (ofString s).names = namesOf s.toList := by
  have hparts (cs : List Char) (a : Anchor) : names ⟨a, partsOf cs⟩ = namesOf cs := by
    simp only [names, namesOf, partsOf, List.filter_reverse, List.reverse_reverse]
  unfold ofString
  split
  case h_1 h => rw [h]; rfl
  case h_2 cs h => rw [h, hparts, namesOf_cons_slash]
  case h_3 h => rw [h]; rfl
  case h_4 cs h => rw [h, hparts, namesOf_cons_slash, namesOf_dot_slash]
  case h_5 => exact hparts ..

/-- A path that some text writes: its parts hold no slash, and the first one is not taken for
another start. -/
structure WellFormed (p : Path) : Prop where
  noSlash : ∀ part ∈ p.parts, '/' ∉ part.toList
  ofWork : p.anchor = .work → ∀ part, p.parts.getLast? = some part → isVoid part = false
  ofHere : p.anchor = .here → ∀ part, p.parts.getLast? = some part → part = ""

theorem wellFormed_nil (a : Anchor) : WellFormed ⟨a, []⟩ := ⟨by simp, by simp, by simp⟩

theorem wellFormed_ofString (s : String) : (ofString s).WellFormed := by
  have hslash (cs : List Char) : ∀ part ∈ partsOf cs, '/' ∉ part.toList := by
    intro part hpart
    simp only [partsOf, List.mem_reverse, List.mem_map] at hpart
    obtain ⟨part, hpart, rfl⟩ := hpart
    simpa using notMem_of_mem_split hpart
  unfold ofString
  split
  case h_1 => exact wellFormed_nil _
  case h_2 cs h => exact ⟨hslash cs, by simp, by simp⟩
  case h_3 => exact wellFormed_nil _
  case h_4 cs h => exact ⟨hslash _, by simp, by simp [partsOf, split]⟩
  case h_5 hnil hroot hhere hhere' =>
    refine ⟨hslash _, fun _ part hpart => ?_, by simp⟩
    rw [partsOf, List.getLast?_reverse, List.head?_map] at hpart
    obtain ⟨first, hfirst, rfl⟩ := Option.map_eq_some_iff.mp hpart
    refine Bool.eq_false_iff.mpr fun hvoid => ?_
    rw [isVoid_iff, String.toList_ofList] at hvoid
    rcases hvoid with rfl | rfl
    · rcases eq_of_head?_split hfirst with hs | ⟨ds, hs⟩
      · exact hnil hs
      · exact hroot ds hs
    · rcases eq_of_head?_split hfirst with hs | ⟨ds, hs⟩
      · exact hhere hs
      · exact hhere' ds hs

theorem WellFormed.parent? (h : p.WellFormed) (hq : p.parent? = some q) : q.WellFormed := by
  rcases suffix_of_parent? hq with rfl | ⟨hanchor, hsuffix⟩
  · exact wellFormed_nil _
  · have hlast {last : String} (hl : q.parts.getLast? = some last) :
        p.parts.getLast? = some last := by
      obtain ⟨taken, htaken⟩ := hsuffix
      rw [← htaken, List.getLast?_append, hl]
      rfl
    exact ⟨fun part hpart => h.noSlash part (hsuffix.subset hpart),
      fun ha part hl => h.ofWork (hanchor ▸ ha) part (hlast hl),
      fun ha part hl => h.ofHere (hanchor ▸ ha) part (hlast hl)⟩

theorem WellFormed.mem_ancestors (h : p.WellFormed) (hq : q ∈ p.ancestors) : q.WellFormed := by
  fun_induction ancestors p with
  | case1 p hnone => exact List.mem_singleton.mp hq ▸ h
  | case2 p r hr ih =>
      rcases List.mem_cons.mp hq with rfl | hq
      · exact h
      · exact ih (h.parent? hr) hq

/-! ### Reading what was written -/

theorem namesOf_unsplit {parts : List (List Char)} (h : ∀ part ∈ parts, '/' ∉ part) :
    namesOf (unsplit parts) = (parts.map String.ofList).filter fun part => !isVoid part := by
  rcases parts with _ | ⟨part, parts⟩
  · rfl
  · rw [namesOf, split_unsplit (List.cons_ne_nil part parts) h]

variable (h : p.WellFormed)

include h

theorem noSlash_parts : ∀ part ∈ p.parts.reverse.map String.toList, '/' ∉ part := by
  simpa using h.noSlash

theorem unsplit_of_here (ha : p.anchor = .here) :
    unsplit (p.parts.reverse.map String.toList) = [] ∨
      ∃ cs, unsplit (p.parts.reverse.map String.toList) = '/' :: cs := by
  have hfirst : ∀ part, p.parts.reverse.head? = some part → part = "" := by
    simpa using h.ofHere ha
  rcases hparts : p.parts.reverse with _ | ⟨part, _ | ⟨other, rest⟩⟩
  · exact .inl rfl
  · obtain rfl := hfirst part (by rw [hparts]; rfl)
    exact .inl rfl
  · obtain rfl := hfirst part (by rw [hparts]; rfl)
    exact .inr ⟨_, rfl⟩

theorem namesOf_render : namesOf p.render.toList = p.names := by
  have hnames : namesOf (unsplit (p.parts.reverse.map String.toList)) = p.names := by
    rw [namesOf_unsplit (noSlash_parts h), names, ← List.filter_reverse]
    simp [Function.comp_def]
  rw [toList_render, ← hnames]
  cases ha : p.anchor with
  | work => rfl
  | here =>
      rcases unsplit_of_here h ha with hu | ⟨cs, hu⟩
      · rw [hu]; rfl
      · rw [hu, namesOf_cons_slash]; exact namesOf_dot_slash cs
  | root => exact namesOf_cons_slash _

theorem anchorOf_render : anchorOf p.render.toList = p.anchor := by
  rw [toList_render]
  cases ha : p.anchor with
  | work =>
      have hfirst : ∀ part, p.parts.reverse.head? = some part → isVoid part = false := by
        simpa using h.ofWork ha
      have hslash := noSlash_parts h
      rcases hparts : p.parts.reverse with _ | ⟨part, rest⟩
      · rfl
      · have hvoid := hfirst part (by rw [hparts]; rfl)
        rw [hparts] at hslash
        have hsplit := split_unsplit (List.cons_ne_nil part.toList (rest.map String.toList)) hslash
        exact anchorOf_of_head?_split (congrArg List.head? hsplit) (by simpa using hvoid)
  | here =>
      rcases unsplit_of_here h ha with hu | ⟨cs, hu⟩ <;> rw [hu] <;> rfl
  | root => rfl

omit h

/-! ### A name in a directory -/

/-- What can stand between slashes and leads somewhere. -/
structure Plain (name : String) : Prop where
  noSlash : '/' ∉ name.toList
  notVoid : isVoid name = false

theorem namesOf_name (h : Plain name) : namesOf name.toList = [name] := by
  rw [namesOf, split_of_notMem h.noSlash]
  simp [h.notVoid]

/-- A slash stands before the name, unless there is nothing before it. -/
theorem toList_join (p : Path) (name : String) :
    (p.render.toList = [] ∧ (p.join name).toList = name.toList) ∨
    (∃ cs, p.render.toList = cs ++ ['/'] ∧ (p.join name).toList = cs ++ '/' :: name.toList) ∨
    (p.render.toList ≠ [] ∧ (p.join name).toList = p.render.toList ++ '/' :: name.toList) := by
  by_cases hempty : p.render = ""
  · exact .inl (by simp [join, hempty])
  · by_cases hlast : p.render.toList.getLast? = some '/'
    · obtain ⟨cs, hcs⟩ := List.getLast?_eq_some_iff.mp hlast
      exact .inr (.inl ⟨cs, hcs, by simp [join, hcs]⟩)
    · refine .inr (.inr ⟨fun h => hempty (String.toList_inj.mp h), ?_⟩)
      simp [join, hempty, hlast]

/-- **The path to a name in a directory has the name as one more component.** -/
theorem components_join (hp : p.WellFormed) (h : Plain name) :
    (ofString (p.join name)).components = p.components ++ [name] := by
  rw [components, anchor_ofString, names_ofString, components, ← anchorOf_render hp,
    ← namesOf_render hp, List.append_assoc, ← namesOf_name h]
  rcases toList_join p name with ⟨hrender, hjoin⟩ | ⟨cs, hrender, hjoin⟩ | ⟨hrender, hjoin⟩
  · have hwork : anchorOf name.toList = .work :=
      anchorOf_of_head?_split (by rw [split_of_notMem h.noSlash]; rfl) (by simp [h.notVoid])
    rw [hjoin, hrender, hwork]
    rfl
  · rw [hjoin, hrender, namesOf_append_slash, namesOf_append_slash, List.append_assoc]
    rcases cs with _ | ⟨c, cs⟩
    · rfl
    · rw [anchorOf_append_slash (List.cons_ne_nil c cs),
        anchorOf_append_slash (List.cons_ne_nil c cs)]
      rfl
  · rw [hjoin, anchorOf_append_slash hrender, namesOf_append_slash]

/-- What is above the path to a name in a directory is that directory. -/
theorem parent?_join (hp : p.WellFormed) (h : Plain name) :
    ∃ dir, (ofString (p.join name)).parent? = some dir ∧ dir.components = p.components := by
  have hjoin := components_join hp h
  cases hdir : (ofString (p.join name)).parent? with
  | none =>
      obtain ⟨hnone, hhere⟩ := components_of_parent?_eq_none hdir
      rw [hjoin] at hnone
      cases ha : (ofString (p.join name)).anchor with
      | work =>
          rw [ha] at hnone
          simp [Anchor.components] at hnone
      | here => exact absurd ha hhere
      | root =>
          rw [ha, Anchor.components] at hnone
          have hname : name = "/" := by simpa using congrArg List.getLast? hnone
          exact absurd (by rw [hname]; decide) h.noSlash
  | some dir =>
      obtain ⟨c, hc⟩ := components_of_parent? hdir
      exact ⟨dir, rfl, (List.append_inj' (hc.symm.trans hjoin) rfl).1⟩

end Path

end ProcScript
