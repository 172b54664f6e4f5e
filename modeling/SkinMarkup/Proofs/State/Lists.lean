import SkinMarkup.Proofs.TagText.Slots
import SkinMarkup.Proofs.Text.Entities
import SkinMarkup.State.StateList

/-!
# Written lists of states

A list of states that is written is read again as it was (`entries_render`), and
what is in no entry is nowhere in the written list (`isInfix_render`). Names of
states have letters, digits and underscores only, so they are entries and parts
of names.
-/

namespace SkinMarkup

/-! ## Parts between commas -/

variable {sep : Char} {t word : Text} {parts : List Text}

theorem partsAt_eq_splitOn (sep : Char) (t : Text) : partsAt sep t = t.splitOn sep := by
  induction t with
  | nil => rfl
  | cons c cs ih =>
    have hsplit : (c :: cs).splitOn sep =
        if c = sep then [] :: cs.splitOn sep else (cs.splitOn sep).modifyHead (c :: ·) := by
      simp [List.splitOn, List.splitOnP_cons_eq_if_modifyHead]
    rw [partsAt, hsplit, ih]
    split
    · rfl
    · cases h : cs.splitOn sep with
      | nil => exact absurd h (List.splitOn_ne_nil sep cs)
      | cons part parts => rfl

theorem partsAt_joinWith (h : ∀ p ∈ parts, sep ∉ p) (hne : parts ≠ []) :
    partsAt sep (joinWith sep parts) = parts := by
  rw [partsAt_eq_splitOn]
  exact List.splitOn_intercalate sep h hne

theorem joinWith_partsAt (sep : Char) (t : Text) : joinWith sep (partsAt sep t) = t := by
  rw [partsAt_eq_splitOn]
  exact List.intercalate_splitOn sep

theorem joinWith_cons_cons (first second : Text) (others : List Text) :
    joinWith sep (first :: second :: others) = first ++ sep :: joinWith sep (second :: others) := by
  rw [joinWith, List.intercalate_cons_cons, List.append_assoc]
  rfl

theorem joinWith_singleton (part : Text) : joinWith sep [part] = part := by
  simp [joinWith]

theorem joinWith_concat (hne : parts ≠ []) (part : Text) :
    joinWith sep (parts ++ [part]) = joinWith sep parts ++ sep :: part := by
  induction parts with
  | nil => exact absurd rfl hne
  | cons first others ih =>
    cases others with
    | nil => rw [List.singleton_append, joinWith_cons_cons, joinWith_singleton, joinWith_singleton]
    | cons second others =>
      rw [List.cons_append, List.cons_append, joinWith_cons_cons, joinWith_cons_cons,
        ← List.cons_append, ih (List.cons_ne_nil _ _), List.append_assoc]
      rfl

theorem mem_joinWith {c : Char} (h : c ∈ joinWith sep parts) : c = sep ∨ ∃ p ∈ parts, c ∈ p := by
  induction parts with
  | nil => cases h
  | cons first others ih =>
    cases others with
    | nil =>
      rw [joinWith_singleton] at h
      exact Or.inr ⟨first, List.mem_cons_self, h⟩
    | cons second others =>
      rw [joinWith_cons_cons, List.mem_append, List.mem_cons] at h
      rcases h with h | rfl | h
      · exact Or.inr ⟨first, List.mem_cons_self, h⟩
      · exact Or.inl rfl
      · rcases ih h with rfl | ⟨p, hp, hc⟩
        · exact Or.inl rfl
        · exact Or.inr ⟨p, List.mem_cons_of_mem first hp, hc⟩

/-- A word does not reach over a character that it does not have. -/
theorem isInfix_or_isInfix {a b : Text} (hsep : sep ∉ word) (h : word <:+: a ++ sep :: b) :
    word <:+: a ∨ word <:+: b := by
  obtain ⟨l, r, heq⟩ := h
  rw [List.append_assoc] at heq
  rcases List.append_eq_append_iff.mp heq with ⟨m, rfl, hm⟩ | ⟨m, rfl, hm⟩
  · rcases List.append_eq_append_iff.mp hm with ⟨n, rfl, -⟩ | ⟨n, rfl, hn⟩
    · exact Or.inl ⟨l, n, by simp⟩
    · -- The separator comes right behind the part of the word that is in `a`.
      cases n with
      | nil => exact Or.inl ⟨l, [], by simp⟩
      | cons d ds =>
        obtain ⟨rfl, -⟩ := List.cons.inj hn
        exact absurd (by simp) hsep
  · cases m with
    | nil =>
      cases word with
      | nil => exact Or.inl ⟨a, [], by simp⟩
      | cons d ds =>
        obtain ⟨rfl, -⟩ := List.cons.inj hm
        exact absurd List.mem_cons_self hsep
    | cons d ds =>
      obtain ⟨rfl, rfl⟩ := List.cons.inj hm
      exact Or.inr ⟨ds, r, by simp⟩

theorem isInfix_joinWith (hsep : sep ∉ word) (hword : word ≠ [])
    (h : word <:+: joinWith sep parts) : ∃ p ∈ parts, word <:+: p := by
  induction parts with
  | nil => exact absurd (List.infix_nil.mp h) hword
  | cons first others ih =>
    cases others with
    | nil =>
      rw [joinWith_singleton] at h
      exact ⟨first, List.mem_cons_self, h⟩
    | cons second others =>
      rw [joinWith_cons_cons] at h
      rcases isInfix_or_isInfix hsep h with h | h
      · exact ⟨first, List.mem_cons_self, h⟩
      · obtain ⟨p, hp, h⟩ := ih h
        exact ⟨p, List.mem_cons_of_mem first hp, h⟩

theorem isInfix_joinWith_of_mem {part : Text} (h : part ∈ parts) : part <:+: joinWith sep parts := by
  induction parts with
  | nil => cases h
  | cons first others ih =>
    cases others with
    | nil =>
      rw [joinWith_singleton]
      exact List.mem_singleton.mp h ▸ List.infix_refl part
    | cons second others =>
      rw [joinWith_cons_cons]
      rcases List.mem_cons.mp h with rfl | h
      · exact (List.prefix_append _ _).isInfix
      · exact (ih h).trans ⟨first ++ [sep], [], by simp⟩

theorem not_mem_of_mem_partsAt {part : Text} (h : part ∈ partsAt sep t) : sep ∉ part := by
  induction t generalizing part with
  | nil =>
    rw [List.mem_singleton.mp h]
    simp
  | cons c cs ih =>
    rw [partsAt] at h
    split at h
    · rcases List.mem_cons.mp h with rfl | h
      · simp
      · exact ih h
    · next hc =>
      split at h
      · rw [List.mem_singleton.mp h]
        simpa using Ne.symm hc
      · next first others heq =>
        rcases List.mem_cons.mp h with rfl | h
        · simpa [Ne.symm hc] using ih (heq ▸ List.mem_cons_self)
        · exact ih (heq ▸ List.mem_cons_of_mem first h)

/-! ## Entries -/

/-- What an entry of a list looks like. -/
structure IsEntry (entry : Text) : Prop where
  nonempty : entry ≠ []
  trimmed : Trimmed entry
  comma : ',' ∉ entry

namespace StateList

variable {value entry : Text} {states : List Text}

theorem mem_entries (h : entry ∈ entries value) : IsEntry entry ∧ entry <:+: value := by
  rw [entries, List.mem_filter] at h
  obtain ⟨hmem, hne⟩ := h
  obtain ⟨part, hpart, rfl⟩ := List.mem_map.mp hmem
  have hpartValue : part <:+: value := by
    have hwithin : part <:+: joinWith ',' (partsAt ',' value) := isInfix_joinWith_of_mem hpart
    rwa [joinWith_partsAt] at hwithin
  refine ⟨⟨by simpa using hne, trimmed_trim part, fun hcomma => ?_⟩, (trim_part part).trans hpartValue⟩
  exact not_mem_of_mem_partsAt hpart ((trim_part part).subset hcomma)

/-- **A written list is read as it was.** -/
theorem entries_render (h : ∀ e ∈ states, IsEntry e) : entries (render states) = states := by
  cases states with
  | nil => rfl
  | cons first others =>
    have htrim : (first :: others).map trim = first :: others := by
      conv => rhs; rw [← List.map_id (first :: others)]
      exact List.map_congr_left fun e he => trim_of_trimmed (h e he).trimmed
    rw [entries, render, partsAt_joinWith (fun e he => (h e he).comma) (List.cons_ne_nil _ _), htrim]
    exact List.filter_eq_self.mpr fun e he => by simpa using (h e he).nonempty

/-- A character of a written list is a comma or in an entry. -/
theorem mem_render {c : Char} (h : c ∈ render states) (hc : c ≠ ',') : ∃ e ∈ states, c ∈ e :=
  (mem_joinWith h).resolve_left hc

/-- A word in a written list is in an entry. -/
theorem isInfix_render (hword : ',' ∉ word) (hne : word ≠ []) (h : word <:+: render states) :
    ∃ e ∈ states, word <:+: e :=
  isInfix_joinWith hword hne h

theorem render_concat (hne : states ≠ []) (state : Text) :
    render (states ++ [state]) = render states ++ ',' :: state :=
  joinWith_concat hne state

end StateList

/-! ## References in lists -/

/-- References do not reach over commas. -/
theorem unescapable_joinWith_iff (hne : parts ≠ []) :
    Unescapable (joinWith ',' parts) ↔ ∀ p ∈ parts, Unescapable p := by
  induction parts with
  | nil => exact absurd rfl hne
  | cons first others ih =>
    cases others with
    | nil => rw [joinWith_singleton, List.forall_mem_singleton]
    | cons second others =>
      rw [joinWith_cons_cons, unescapable_around_iff foreign_comma, ih (List.cons_ne_nil _ _)]
      exact List.forall_mem_cons.symm

theorem Unescapable.of_mem_entries {value entry : Text} (h : Unescapable value)
    (hentry : entry ∈ StateList.entries value) : Unescapable entry := by
  obtain ⟨part, hpart, rfl⟩ := List.mem_map.mp (List.mem_of_mem_filter hentry)
  rw [← joinWith_partsAt ',' value, unescapable_joinWith_iff (List.ne_nil_of_mem hpart)] at h
  exact (h part hpart).trim

theorem unescapable_render {states : List Text} (h : ∀ e ∈ states, Unescapable e) :
    Unescapable (StateList.render states) := by
  by_cases hnil : states = []
  · rw [hnil]
    exact unescapable_of_not_mem (by decide)
  · exact (unescapable_joinWith_iff hnil).mpr h

/-! ## Names of states -/

/-- A letter, a digit or an underscore, all of them of one byte. -/
def isStateChar (c : Char) : Bool :=
  [(0x30, 0x39), (0x41, 0x5A), (0x5F, 0x5F), (0x61, 0x7A)].any fun (low, high) =>
    decide (low ≤ c.toNat) && decide (c.toNat ≤ high)

/-- A plain name of a state. -/
def isStateName (name : Text) : Bool :=
  !name.isEmpty && name.all isStateChar

theorem isNameChar_of_isStateChar {c : Char} (h : isStateChar c = true) : isNameChar c = true := by
  simp [isStateChar] at h
  simp [isNameChar, isNameStart, nameStartRanges, nameRanges]
  omega

theorem isBlank_of_isStateChar {c : Char} (h : isStateChar c = true) : isBlank c = false := by
  simp [isStateChar] at h
  simp [isBlank, blankRanges]
  omega

theorem ne_of_isStateChar {c d : Char} (hc : isStateChar c = true) (hd : isStateChar d = false) :
    c ≠ d := by
  rintro rfl
  cases hc.symm.trans hd

section

variable {name : Text} (h : isStateName name = true)

include h

theorem ne_nil_of_isStateName : name ≠ [] := by
  rintro rfl
  cases h

theorem isStateChar_of_mem {c : Char} (hc : c ∈ name) : isStateChar c = true := by
  simp only [isStateName, Bool.and_eq_true] at h
  exact List.all_eq_true.mp h.2 c hc

theorem not_mem_of_isStateName {c : Char} (hc : isStateChar c = false) : c ∉ name :=
  fun hmem => ne_of_isStateChar (isStateChar_of_mem h hmem) hc rfl

theorem isEntry_of_isStateName : IsEntry name where
  nonempty := ne_nil_of_isStateName h
  trimmed := ⟨fun _ hc => isBlank_of_isStateChar (isStateChar_of_mem h (List.mem_of_mem_head? hc)),
    fun _ hc => isBlank_of_isStateChar (isStateChar_of_mem h (List.mem_of_getLast? hc))⟩
  comma := not_mem_of_isStateName h rfl

theorem nameChars_of_isStateName : NameChars name :=
  fun _ hc => isNameChar_of_isStateChar (isStateChar_of_mem h hc)

end

end SkinMarkup
