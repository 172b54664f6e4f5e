import Mathlib.Data.Finset.Dedup
import Mathlib.Data.Finset.SDiff
import SkinMarkup.Proofs.State.CopiedTag
import SkinMarkup.Proofs.TagText.Filled
import SkinMarkup.State.Rename

/-!
# Rewriting names

A rewriter puts one name for another into a text. What it does to a filled
template is to change the names of some of the holes, and which holes these are
does not depend on the names (`Rewriter.On`): this holds of the value that names
a state (`exists_value_on`), of a list of states (`exists_list_on`), of both as
values of an attribute (`exists_inSlot_on`) and of the names of attributes
(`exists_attributes_on`).

So one run of rewriters that puts a new name for an old one, and another that
puts the old one back, change the same holes: **what they make of a text in the
end is the text** (`exists_run`).
-/

namespace SkinMarkup

open Template TemplateSymbol

/-! ## Holes that get another name -/

/-- Puts the name `new` for `old` into the given holes. -/
def Names.change (holes : Finset Nat) (old new : StateName) (names : Names) : Names :=
  fun i => if i ∈ holes ∧ names i = old then new else names i

namespace Names

variable {names : Names} {old new : StateName} {holes : Finset Nat} {i : Nat}

theorem change_of_mem (hi : i ∈ holes) (h : names i = old) : names.change holes old new i = new :=
  if_pos ⟨hi, h⟩

theorem change_of_not_mem (h : i ∉ holes) : names.change holes old new i = names i :=
  if_neg fun hi => h hi.1

theorem change_of_ne (h : names i ≠ old) : names.change holes old new i = names i :=
  if_neg fun hi => h hi.2

theorem change_eq_self (h : ∀ i ∈ holes, names i ≠ old) : names.change holes old new = names := by
  funext i
  by_cases hi : i ∈ holes
  · exact change_of_ne (h i hi)
  · exact change_of_not_mem hi

/-- Holes that are changed one after the other are changed. -/
theorem change_change (done holes : Finset Nat) :
    (names.change done old new).change holes old new = names.change (done ∪ holes) old new := by
  funext i
  by_cases hold : names i = old
  · by_cases hdone : i ∈ done
    · rw [change_of_mem (Finset.mem_union_left _ hdone) hold, change, change_of_mem hdone hold]
      exact ite_self new
    · rw [change, change_of_not_mem hdone, change]
      simp [hold, hdone]
  · rw [change_of_ne hold, change_of_ne (by rwa [change_of_ne hold]), change_of_ne hold]

/-- Holes that are changed back are not changed. -/
theorem change_back (hnew : ∀ i, names i ≠ new) (changed holes : Finset Nat) :
    (names.change changed old new).change holes new old =
      names.change (changed \ holes) old new := by
  funext i
  by_cases hchanged : i ∈ changed ∧ names i = old
  · by_cases hi : i ∈ holes
    · rw [change_of_mem hi (change_of_mem hchanged.1 hchanged.2),
        change_of_not_mem fun h => (Finset.mem_sdiff.mp h).2 hi, hchanged.2]
    · rw [change_of_not_mem hi, change_of_mem hchanged.1 hchanged.2,
        change_of_mem (Finset.mem_sdiff.mpr ⟨hchanged.1, hi⟩) hchanged.2]
  · have hkeep : names.change changed old new i = names i := if_neg hchanged
    rw [change_of_ne (by rw [hkeep]; exact hnew i), hkeep, change]
    exact (if_neg fun h => hchanged ⟨(Finset.mem_sdiff.mp h.1).1, h.2⟩).symm

/-- A hole has the new name only where the old one has been changed. -/
theorem of_change_eq (hnew : names i ≠ new) (h : names.change holes old new i = new) :
    i ∈ holes ∧ names i = old := by
  by_contra hnot
  exact hnew ((if_neg hnot).symm.trans h)

end Names

theorem Template.fill_change_of_disjoint {names : Names} {old new : StateName}
    {changed : Finset Nat} {s : Template} (h : ∀ i ∈ holes s, i ∉ changed) :
    fill (names.change changed old new) s = fill names s :=
  fill_congr fun i hi => Names.change_of_not_mem (h i hi)

/-- Among parts that share no hole, a hole that is chosen is chosen by the part
it is in. -/
theorem Template.mem_flatMap_own {ι : Type} {parts : List ι} {own all : ι → List Nat}
    (hnodup : (parts.flatMap all).Nodup) (hown : ∀ part ∈ parts, own part ⊆ all part) {part : ι}
    (hpart : part ∈ parts) {i : Nat} (hi : i ∈ all part) :
    i ∈ parts.flatMap own ↔ i ∈ own part := by
  constructor
  · intro hmem
    obtain ⟨other, hother, hiother⟩ := List.mem_flatMap.mp hmem
    have hall := hown other hother hiother
    induction parts with
    | nil => cases hpart
    | cons first others ih =>
      rw [List.flatMap_cons, List.nodup_append'] at hnodup
      obtain ⟨-, hnodup, hdisjoint⟩ := hnodup
      rcases List.mem_cons.mp hpart with rfl | hpart'
      · rcases List.mem_cons.mp hother with rfl | hother'
        · exact hiother
        · exact (hdisjoint hi (List.mem_flatMap.mpr ⟨other, hother', hall⟩)).elim
      · rcases List.mem_cons.mp hother with rfl | hother'
        · exact (hdisjoint hall (List.mem_flatMap.mpr ⟨part, hpart', hi⟩)).elim
        · exact ih hnodup (fun p hp => hown p (List.mem_cons_of_mem first hp)) hpart'
            (List.mem_flatMap.mpr ⟨other, hother', hiother⟩) hother'
  · intro hmem
    exact List.mem_flatMap.mpr ⟨part, hpart, hmem⟩

/-! ## Rewriters -/

/-- A way to put one name for another into a text. -/
structure Rewriter where
  apply : (old new : Text) → Text → Text
  /-- Whether there is something to rewrite. -/
  Reacts : (old : Text) → Text → Prop
  /-- Whether what is rewritten is written in the normal way. -/
  Exact : (old : Text) → Text → Prop

namespace Rewriter

variable {r : Rewriter} {s : Template}

/-- Whether what is rewritten, if anything is, is written in the normal way. -/
def Normal (r : Rewriter) (old t : Text) : Prop :=
  r.Reacts old t → r.Exact old t

/-- What a rewriter does to a filled template: it looks at the names of the given
holes. A name that it finds elsewhere is written out in the template. -/
structure On (r : Rewriter) (s : Template) (seen : Finset Nat) : Prop where
  reacts : ∀ {names : Names} {old : StateName} {i : Nat}, i ∈ seen → names i = old →
    r.Reacts old.val (s.fill names)
  seen_of_reacts : ∀ {names : Names} {old : StateName}, r.Reacts old.val (s.fill names) →
    (∃ i ∈ seen, names i = old) ∨ old.val.map char <:+: s
  seen_of_exact : ∀ {names : Names} {old : StateName}, r.Reacts old.val (s.fill names) →
    r.Exact old.val (s.fill names) → ∃ i ∈ seen, names i = old
  exact_of_normal : ∀ {names : Names} {old : StateName} {i : Nat}, i ∈ seen → names i = old →
    r.Normal old.val (s.fill names) → ∀ (names' : Names) (old' : StateName),
      r.Normal old'.val (s.fill names')
  apply_eq : ∀ {names : Names} {old : StateName} (new : StateName),
    r.Normal old.val (s.fill names) →
      r.apply old.val new.val (s.fill names) = s.fill (names.change seen old new)

/-- What is normal stays so with other names, as long as a name that is looked
for is not found in more holes. -/
theorem On.normal {seen : Finset Nat} (h : r.On s seen) {names names' : Names}
    {old old' : StateName} (hnormal : r.Normal old.val (s.fill names))
    (hnames : ∀ i ∈ seen, names' i = old' → names i = old)
    (hfresh : ¬ old'.val.map char <:+: s) : r.Normal old'.val (s.fill names') := by
  intro hreacts
  rcases h.seen_of_reacts hreacts with ⟨i, hi, hold⟩ | hpart
  · exact h.exact_of_normal hi (hnames i hi hold) hnormal names' old' hreacts
  · exact absurd hpart hfresh

/-! ## A value that is a name -/

/-- Rewrites a value that is a name between blanks. -/
def value : Rewriter where
  apply old new v := if trim v = old then new else v
  Reacts old v := trim v = old
  Exact old v := v = old

theorem exists_map_char (h : ∀ i, hole i ∉ s) : ∃ t : Text, s = t.map char := by
  induction s with
  | nil => exact ⟨[], rfl⟩
  | cons x xs ih =>
    obtain ⟨t, rfl⟩ := ih fun i hi => h i (List.mem_cons_of_mem x hi)
    cases x with
    | char c => exact ⟨c :: t, rfl⟩
    | hole i => exact absurd List.mem_cons_self (h i)

/-- A name in a filled template is a hole, or it is written out. -/
theorem eq_hole_or_of_fill {names : Names} {name : StateName} (hs : Jointed s)
    (h : s.fill names = name.val) :
    (∃ i, s = [hole i] ∧ names i = name) ∨ s = name.val.map char := by
  have hchars : ∀ c, char c ∈ s → isStateChar c = true := by
    intro c hc
    apply name.isStateChar
    rw [← h]
    exact List.mem_flatMap.mpr ⟨char c, hc, List.mem_singleton_self c⟩
  by_cases hhole : ∃ i, hole i ∈ s
  · left
    obtain ⟨i, hi⟩ := hhole
    obtain ⟨u, v, rfl⟩ := List.append_of_mem hi
    -- Before and behind a hole stands no character of a name.
    obtain rfl : u = [] := by
      rcases List.eq_nil_or_concat u with hnil | ⟨u, x, rfl⟩
      · exact hnil
      · have hjoint : Jointed ([x] ++ hole i :: v) := by
          rw [List.concat_eq_append, List.append_assoc] at hs
          exact (jointed_of_append hs).2
        cases x with
        | char c =>
          have hsign : isSign c = true := hjoint.rel_head? rfl
          have hplain := hchars c (by simp)
          cases (isStateChar_of_isSign hsign).symm.trans hplain
        | hole j => exact False.elim (hjoint.rel_head? rfl)
    obtain rfl : v = [] := by
      cases v with
      | nil => rfl
      | cons x xs =>
        cases x with
        | char c =>
          have hplain : isStateChar c = false := List.IsChain.rel_head? hs rfl
          cases hplain.symm.trans (hchars c (by simp))
        | hole j => exact False.elim (List.IsChain.rel_head? hs rfl)
    refine ⟨i, rfl, Subtype.ext ?_⟩
    rw [← h]
    simp
  · right
    obtain ⟨t, rfl⟩ := exists_map_char fun i hi => hhole ⟨i, hi⟩
    rw [fill_map_char] at h
    rw [h]

/-- Right behind a sign a name is a hole. -/
theorem eq_hole_of_fill {names : Names} {name : StateName} (hs : Opened s)
    (h : s.fill names = name.val) : ∃ i, s = [hole i] ∧ names i = name := by
  rcases eq_hole_or_of_fill hs.jointed h with hhole | rfl
  · exact hhole
  · obtain ⟨c, cs, hname⟩ := List.exists_cons_of_ne_nil name.ne_nil
    have hc : isStateChar c = false := by
      have hfirst : Joint (char ',') (char c) := List.IsChain.rel_head? hs (by rw [hname]; rfl)
      exact hfirst rfl
    cases hc.symm.trans (name.isStateChar (hname ▸ List.mem_cons_self))

/-- The hole that a template is. -/
def soleHole : Template → List Nat
  | [hole i] => [i]
  | _ => []

theorem mem_soleHole {i : Nat} : i ∈ soleHole s ↔ s = [hole i] := by
  constructor
  · intro h
    unfold soleHole at h
    split at h
    · rw [List.mem_singleton.mp h]
    · cases h
  · rintro rfl
    exact List.mem_singleton_self i

theorem trim_name {names : Names} {i : Nat} (h : Template.trim s = [hole i]) :
    trim (s.fill names) = (names i).val := by
  rw [trim_fill, h]
  simp

/-- A name between blanks is a hole between blanks, or it is written out. -/
theorem trim_eq_hole_or_of_trim_fill {names : Names} {name : StateName} (hs : Jointed s)
    (h : trim (s.fill names) = name.val) :
    (∃ i, Template.trim s = [hole i] ∧ names i = name) ∨ name.val.map char <:+: s := by
  rw [trim_fill] at h
  have hwithin := trim_isInfix s
  obtain ⟨u, v, hsplit⟩ := hwithin
  have htrim : Jointed (Template.trim s) := by
    rw [← hsplit] at hs
    exact (jointed_of_append (jointed_of_append hs).1).2
  rcases eq_hole_or_of_fill htrim h with hhole | hchars
  · exact Or.inl hhole
  · exact Or.inr ⟨u, v, by rw [← hchars, hsplit]⟩

theorem exists_value_on (hs : Opened s) : ∃ seen ⊆ (holes s).toFinset, value.On s seen := by
  have hmem : ∀ {i : Nat}, i ∈ (soleHole (Template.trim s)).toFinset ↔ Template.trim s = [hole i] :=
    fun {i} => by rw [List.mem_toFinset, mem_soleHole]
  -- A value that is exactly a name is a hole.
  have hexact : ∀ {names : Names} {old : StateName} {i : Nat}, Template.trim s = [hole i] →
      s.fill names = old.val → s = [hole i] := by
    intro names old i hi hfill
    obtain ⟨j, rfl, -⟩ := eq_hole_of_fill hs hfill
    exact hi
  refine ⟨(soleHole (Template.trim s)).toFinset, ?_, ?_, ?_, ?_, ?_, ?_⟩
  · intro i hi
    rw [List.mem_toFinset, mem_holes]
    exact (trim_isInfix s).subset (by rw [hmem.mp hi]; exact List.mem_singleton_self _)
  · intro names old i hi hold
    exact (trim_name (hmem.mp hi)).trans (congrArg Subtype.val hold)
  · intro names old hreacts
    refine (trim_eq_hole_or_of_trim_fill hs.jointed hreacts).imp_left ?_
    rintro ⟨i, hi, hold⟩
    exact ⟨i, hmem.mpr hi, hold⟩
  · intro names old _ hfill
    obtain ⟨i, rfl, hold⟩ := eq_hole_of_fill hs hfill
    exact ⟨i, hmem.mpr rfl, hold⟩
  · intro names old i hi hold hnormal names' old' hreacts
    have hfill := hnormal ((trim_name (hmem.mp hi)).trans (congrArg Subtype.val hold))
    have hs := hexact (hmem.mp hi) hfill
    have htrim : trim (s.fill names') = (names' i).val := trim_name (hmem.mp hi)
    have hold' : (names' i).val = old'.val := htrim.symm.trans hreacts
    change s.fill names' = old'.val
    rw [hs, ← hold']
    simp
  · intro names old new hnormal
    by_cases hreacts : trim (s.fill names) = old.val
    · obtain ⟨i, rfl, hi⟩ := eq_hole_of_fill hs (hnormal hreacts)
      have hchange : names.change (soleHole (Template.trim [hole i])).toFinset old new i = new :=
        Names.change_of_mem (hmem.mpr rfl) hi
      have hfill : Template.fill (names.change (soleHole (Template.trim [hole i])).toFinset old new)
          [hole i] = new.val := by
        rw [fill_hole_cons, hchange, fill_nil, List.append_nil]
      exact (if_pos hreacts).trans hfill.symm
    · rw [Names.change_eq_self]
      · exact if_neg hreacts
      · intro i hi hold
        exact hreacts ((trim_name (hmem.mp hi)).trans (congrArg Subtype.val hold))

/-! ## A list of states -/

/-- Rewrites the entries of a written list. -/
def list : Rewriter where
  apply old new v :=
    if (StateList.entries v).contains old then
      StateList.render ((StateList.entries v).map fun e => if e = old then new else e)
    else v
  Reacts old v := old ∈ StateList.entries v
  Exact _ v := v = StateList.render (StateList.entries v)

/-- A list of states with names in it, and its parts. -/
structure Listed (s : Template) (parts : List Template) : Prop where
  nonempty : parts ≠ []
  source : s = [char ','].intercalate parts
  comma : ∀ part ∈ parts, char ',' ∉ part
  opened : ∀ part ∈ parts, Opened part

/-- No part has blanks around it, and none is empty. -/
def Tight (parts : List Template) : Prop :=
  ∀ part ∈ parts, part ≠ [] ∧ Template.trim part = part

section

variable {parts : List Template} (h : Listed s parts)

include h

theorem Listed.entries_eq (names : Names) :
    StateList.entries (s.fill names) =
      (parts.map fun part => trim (part.fill names)).filter (· ≠ []) := by
  rw [StateList.entries, partsAt_fill rfl h.nonempty h.source h.comma, List.map_map]
  rfl

theorem Listed.mem_entries {names : Names} {entry : Text} :
    entry ∈ StateList.entries (s.fill names) ↔
      entry ≠ [] ∧ ∃ part ∈ parts, trim (part.fill names) = entry := by
  rw [h.entries_eq, List.mem_filter, List.mem_map, and_comm]
  simp

theorem Listed.isInfix {part : Template} (hpart : part ∈ parts) : part <:+: s := by
  obtain ⟨front, back, rfl⟩ := List.append_of_mem hpart
  rw [h.source]
  clear h hpart
  induction front with
  | nil =>
    cases back with
    | nil => simp
    | cons next back =>
      rw [List.nil_append, List.intercalate_cons_cons, List.append_assoc]
      exact (List.prefix_append _ _).isInfix
  | cons first front ih =>
    rw [List.cons_append, List.intercalate_cons_of_ne_nil (by simp)]
    exact ih.trans (List.suffix_append _ _).isInfix

theorem Listed.holes_eq : holes s = parts.flatMap holes := by
  rw [h.source]
  clear h
  induction parts with
  | nil => rfl
  | cons first others ih =>
    cases others with
    | nil => simp
    | cons second others =>
      rw [List.intercalate_cons_cons, holes_append, holes_append, ih]
      simp

theorem Listed.fill_eq (names : Names) :
    s.fill names = StateList.render (parts.map (Template.fill names)) := by
  rw [h.source, fill_intercalate]
  rfl

/-- A list of entries between single commas is tight. -/
theorem Listed.tight {names : Names} (hne : StateList.entries (s.fill names) ≠ [])
    (hexact : s.fill names = StateList.render (StateList.entries (s.fill names))) :
    Tight parts := by
  have hentries : parts.map (Template.fill names) = StateList.entries (s.fill names) := by
    have hcomma : ∀ e ∈ StateList.entries (s.fill names), ',' ∉ e :=
      fun e he => (StateList.mem_entries he).1.comma
    have hparts := partsAt_joinWith hcomma hne
    have hrender : joinWith ',' (StateList.entries (s.fill names)) = s.fill names := hexact.symm
    rw [hrender] at hparts
    rw [← hparts, partsAt_fill rfl h.nonempty h.source h.comma]
  intro part hpart
  have hentry : IsEntry (part.fill names) := by
    have hmem : part.fill names ∈ parts.map (Template.fill names) := List.mem_map_of_mem hpart
    rw [hentries] at hmem
    exact (StateList.mem_entries hmem).1
  refine ⟨mt fill_eq_nil_iff.mpr hentry.nonempty, ?_⟩
  have htrim : (Template.trim part).fill names = part.fill names := by
    rw [← trim_fill, trim_of_trimmed hentry.trimmed]
  exact eq_of_sublist (trim_isInfix part).sublist htrim

theorem Listed.entries_of_tight (htight : Tight parts) (names : Names) :
    StateList.entries (s.fill names) = parts.map (Template.fill names) := by
  have htrim : (parts.map fun part => trim (part.fill names)) = parts.map (Template.fill names) :=
    List.map_congr_left fun part hpart => by rw [trim_fill, (htight part hpart).2]
  rw [h.entries_eq, htrim, List.filter_eq_self]
  intro text htext
  obtain ⟨part, hpart, rfl⟩ := List.mem_map.mp htext
  simpa using mt fill_eq_nil_iff.mp (htight part hpart).1

/-- What becomes of one part of a tight list. -/
theorem Listed.fill_change_part (hnodup : (holes s).Nodup) (htight : Tight parts) {names : Names}
    {old : StateName} (new : StateName) {part : Template} (hpart : part ∈ parts) :
    part.fill (names.change (parts.flatMap fun part => soleHole (Template.trim part)).toFinset
        old new) =
      if part.fill names = old.val then new.val else part.fill names := by
  have hown : ∀ p ∈ parts, soleHole (Template.trim p) ⊆ holes p := by
    intro p hp i hi
    rw [(htight p hp).2, mem_soleHole] at hi
    rw [hi]
    exact List.mem_singleton_self i
  rw [h.holes_eq] at hnodup
  split
  · next hfill =>
    obtain ⟨i, rfl, hi⟩ := eq_hole_of_fill (h.opened part hpart) hfill
    have hmem : i ∈ (parts.flatMap fun part => soleHole (Template.trim part)).toFinset := by
      rw [List.mem_toFinset, List.mem_flatMap]
      exact ⟨[hole i], hpart, mem_soleHole.mpr (htight _ hpart).2⟩
    rw [fill_hole_cons, Names.change_of_mem hmem hi, fill_nil, List.append_nil]
  · next hfill =>
    refine fill_congr fun i hi => ?_
    by_cases hold : names i = old
    · -- A hole with the name would be the whole part.
      refine Names.change_of_not_mem fun hmem => hfill ?_
      rw [List.mem_toFinset, mem_flatMap_own hnodup hown hpart hi, (htight part hpart).2,
        mem_soleHole] at hmem
      rw [hmem, fill_hole_cons, hold, fill_nil, List.append_nil]
    · exact Names.change_of_ne hold

end

theorem exists_listed (hs : Opened s) : ∃ parts, Listed s parts := by
  have hcomma : isSign ',' = true := rfl
  obtain ⟨parts, hne, hsource, hparts⟩ := exists_parts hcomma hs
  exact ⟨parts, hne, hsource, fun p hp => (hparts p hp).1, fun p hp => (hparts p hp).2⟩

theorem exists_list_on (hs : Opened s) (hnodup : (holes s).Nodup) :
    ∃ seen ⊆ (holes s).toFinset, list.On s seen := by
  obtain ⟨parts, h⟩ := exists_listed hs
  have hmem : ∀ {i : Nat},
      i ∈ (parts.flatMap fun part => soleHole (Template.trim part)).toFinset ↔
        ∃ part ∈ parts, Template.trim part = [hole i] := by
    intro i
    rw [List.mem_toFinset, List.mem_flatMap]
    simp only [mem_soleHole]
  have hreacts : ∀ {names : Names} {old : StateName} {i : Nat},
      i ∈ (parts.flatMap fun part => soleHole (Template.trim part)).toFinset → names i = old →
        old.val ∈ StateList.entries (s.fill names) := by
    intro names old i hi hold
    obtain ⟨part, hpart, htrim⟩ := hmem.mp hi
    refine h.mem_entries.mpr ⟨old.ne_nil, part, hpart, ?_⟩
    rw [trim_name htrim, hold]
  refine ⟨(parts.flatMap fun part => soleHole (Template.trim part)).toFinset, ?_, hreacts, ?_, ?_,
    ?_, ?_⟩
  · intro i hi
    obtain ⟨part, hpart, htrim⟩ := hmem.mp hi
    rw [List.mem_toFinset, mem_holes]
    have hpartHole : hole i ∈ part :=
      (trim_isInfix part).subset (by rw [htrim]; exact List.mem_singleton_self _)
    exact (h.isInfix hpart).subset hpartHole
  · intro names old hentry
    obtain ⟨-, part, hpart, htrim⟩ := h.mem_entries.mp hentry
    rcases trim_eq_hole_or_of_trim_fill (h.opened part hpart).jointed htrim with
      ⟨i, hi, hold⟩ | hwithin
    · exact Or.inl ⟨i, hmem.mpr ⟨part, hpart, hi⟩, hold⟩
    · exact Or.inr (hwithin.trans (h.isInfix hpart))
  · intro names old hentry hexact
    have htight := h.tight (List.ne_nil_of_mem hentry) hexact
    obtain ⟨-, part, hpart, htrim⟩ := h.mem_entries.mp hentry
    rw [trim_fill, (htight part hpart).2] at htrim
    obtain ⟨i, rfl, hold⟩ := eq_hole_of_fill (h.opened part hpart) htrim
    exact ⟨i, hmem.mpr ⟨[hole i], hpart, rfl⟩, hold⟩
  · intro names old i hi hold hnormal names' old' _
    have hentry := hreacts hi hold
    have htight := h.tight (List.ne_nil_of_mem hentry) (hnormal hentry)
    change s.fill names' = StateList.render (StateList.entries (s.fill names'))
    rw [h.entries_of_tight htight, ← h.fill_eq]
  · intro names old new hnormal
    by_cases hentry : old.val ∈ StateList.entries (s.fill names)
    · have htight := h.tight (List.ne_nil_of_mem hentry) (hnormal hentry)
      refine (if_pos (List.contains_iff_mem.mpr hentry)).trans ?_
      rw [h.entries_of_tight htight, List.map_map, h.fill_eq]
      refine congrArg StateList.render (List.map_congr_left fun part hpart => ?_)
      rw [h.fill_change_part hnodup htight new hpart]
      rfl
    · rw [Names.change_eq_self fun i hi hold => hentry (hreacts hi hold)]
      exact if_neg (mt List.contains_iff_mem.mp hentry)

/-! ## The value of an attribute -/

/-- Rewrites the value of the attribute `name` in a tag's text. -/
def inSlot (name : Text) (r : Rewriter) : Rewriter where
  apply old new tag :=
    match ValueSlot.find? name tag with
    | some slot => slot.replace (r.apply old new slot.value)
    | none => tag
  Reacts old tag := ∃ slot ∈ ValueSlot.find? name tag, r.Reacts old slot.value
  Exact old tag := ∀ slot ∈ ValueSlot.find? name tag, r.Exact old slot.value

/-- A tag without the attribute stays as it is. -/
theorem inSlot_on_of_none {name : Text} (r : Rewriter)
    (hnone : ∀ names : Names, ValueSlot.find? name (s.fill names) = none) : (inSlot name r).On s ∅ := by
  have hreacts : ∀ {names : Names} {old : Text}, ¬ (inSlot name r).Reacts old (s.fill names) := by
    rintro names old ⟨slot, hslot, -⟩
    rw [hnone] at hslot
    cases hslot
  refine ⟨by simp, fun hre => absurd hre hreacts, fun hre => absurd hre hreacts, by simp, ?_⟩
  intro names old new _
  rw [Names.change_eq_self (by simp)]
  simp only [inSlot, hnone]

section

variable {name : Text} {before lead v after : Template} {names : Names} {old : Text}
  (h : HasSlot (fun names => ValueSlot.find? name (s.fill names)) s before lead v after)

include h

theorem reacts_inSlot_iff : (inSlot name r).Reacts old (s.fill names) ↔ r.Reacts old (v.fill names) := by
  simp [inSlot, h.find_eq]

theorem normal_inSlot_iff : (inSlot name r).Normal old (s.fill names) ↔ r.Normal old (v.fill names) := by
  rw [Normal, Normal, reacts_inSlot_iff h]
  simp [inSlot, h.find_eq]

/-- In an attribute a rewriter of values sees what it sees in its value. -/
theorem On.inSlot {seen : Finset Nat} (hon : r.On v seen) (hnodup : (holes s).Nodup)
    (hseen : ∀ i ∈ seen, i ∈ holes v) : (inSlot name r).On s seen where
  reacts hi hold := (reacts_inSlot_iff h).mpr (hon.reacts hi hold)
  seen_of_reacts hre :=
    (hon.seen_of_reacts ((reacts_inSlot_iff h).mp hre)).imp_right fun hwithin =>
      hwithin.trans ⟨before ++ lead, after, h.source.symm⟩
  seen_of_exact {names _} hre hexact :=
    hon.seen_of_exact ((reacts_inSlot_iff h).mp hre) (hexact _ (h.find_eq names))
  exact_of_normal hi hold hn names' old' :=
    (normal_inSlot_iff h).mpr (hon.exact_of_normal hi hold ((normal_inSlot_iff h).mp hn) names' old')
  apply_eq := by
    intro names old new hn
    have happly := hon.apply_eq new ((normal_inSlot_iff h).mp hn)
    have hholes : holes s = holes before ++ holes lead ++ holes v ++ holes after := by
      rw [h.source]
      simp
    rw [hholes] at hnodup
    have hsplit := List.nodup_append'.mp hnodup
    have hsplit' := List.nodup_append'.mp hsplit.1
    -- The other parts of the tag have no hole that is seen.
    have hfront : ∀ i ∈ holes (before ++ lead), i ∉ seen := by
      intro i hi hmem
      rw [holes_append] at hi
      exact hsplit'.2.2 hi (hseen i hmem)
    have hback : ∀ i ∈ holes after, i ∉ seen := by
      intro i hi hmem
      exact hsplit.2.2 (List.mem_append_right _ (hseen i hmem)) hi
    have hchange : s.fill (names.change seen old new) =
        before.fill names ++ lead.fill names ++ v.fill (names.change seen old new) ++
          after.fill names := by
      rw [h.source, fill_append, fill_append, fill_change_of_disjoint hfront,
        fill_change_of_disjoint hback, fill_append]
    simp only [Rewriter.inSlot, h.find_eq]
    rw [ValueSlot.replace, happly, hchange]

end

/-- **A rewriter of values sees the same holes of an attribute's value.** -/
theorem exists_inSlot_on {name : Text} (hname : isStateName name = true)
    (hr : ∀ {v : Template}, Opened v → (holes v).Nodup → ∃ seen ⊆ (holes v).toFinset, r.On v seen)
    (hs : Jointed s) (hnodup : (holes s).Nodup) :
    ∃ seen ⊆ (holes (late s)).toFinset, (inSlot name r).On s seen := by
  rcases find?_fill hname hs with hnone | ⟨before, lead, v, after, h⟩
  · exact ⟨∅, Finset.empty_subset _, inSlot_on_of_none r hnone⟩
  · have hpart : holes v <:+: holes s := by
      rw [h.source]
      exact ⟨holes before ++ holes lead, holes after, by simp⟩
    obtain ⟨seen, hsub, hon⟩ := hr h.opened (hnodup.sublist hpart.sublist)
    have hseen : ∀ i ∈ seen, i ∈ holes v := fun i hi => List.mem_toFinset.mp (hsub hi)
    have hlate : holes (v ++ after) ⊆ holes (late s) := by
      obtain ⟨c, hc, hmem⟩ := h.space
      exact holes_subset_late (by rw [h.source, List.append_assoc (before ++ lead)])
        ⟨c, hc, List.mem_append_right _ hmem⟩
    refine ⟨seen, fun i hi => ?_, hon.inSlot h hnodup hseen⟩
    rw [List.mem_toFinset]
    exact hlate (by rw [holes_append]; exact List.mem_append_left _ (hseen i hi))

end Rewriter

end SkinMarkup
