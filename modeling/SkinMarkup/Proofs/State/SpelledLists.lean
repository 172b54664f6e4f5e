import SkinMarkup.Proofs.State.Lists

/-!
# The names that a list spells

A list of states is edited as it is written and read with its references resolved, so an
entry may spell several names (`StateList.namesIn`): `a&#44;b` does. The names of a list
are those of its entries (`StateList.names_written`), and they stay what they are without
the blanks around the entries (`StateList.names_entries`).
-/

namespace SkinMarkup

variable {sep : Char} {x l r : Text} {parts : List Text}

theorem partsAt_ne_nil (sep : Char) (t : Text) : partsAt sep t ≠ [] := by
  rw [partsAt_eq_splitOn]
  exact List.splitOn_ne_nil sep t

theorem partsAt_around (sep : Char) (a b : Text) :
    partsAt sep (a ++ sep :: b) = partsAt sep a ++ partsAt sep b := by
  induction a with
  | nil => simp [partsAt]
  | cons c cs ih =>
    rw [List.cons_append, partsAt, partsAt, ih]
    split
    · rfl
    · cases hparts : partsAt sep cs with
      | nil => exact absurd hparts (partsAt_ne_nil sep cs)
      | cons part parts => rfl

theorem partsAt_of_not_mem (h : sep ∉ x) : partsAt sep x = [x] := by
  have hsingle := partsAt_joinWith (List.forall_mem_singleton.mpr h) (List.cons_ne_nil x [])
  rwa [joinWith_singleton] at hsingle

theorem Blanks.not_mem_comma (h : Blanks x) : ',' ∉ x := fun hmem => by cases h ',' hmem

theorem trim_around_blanks (hl : Blanks l) (hr : Blanks r) : trim (l ++ x ++ r) = trim x := by
  obtain ⟨a, b, hx, ha, hb, htrimmed⟩ := exists_eq_trim x
  have heq : l ++ x ++ r = (l ++ a) ++ trim x ++ (b ++ r) := by
    conv_lhs => rw [hx]
    simp
  rw [heq, trim_of_blanks_around (hl.append ha) htrimmed (hb.append hr)]

/-- Blanks around a list do not count. -/
theorem map_trim_partsAt_around (hl : Blanks l) (hr : Blanks r) (x : Text) :
    (partsAt ',' (l ++ x ++ r)).map trim = (partsAt ',' x).map trim := by
  obtain ⟨parts, hparts, hne, hcommas⟩ : ∃ parts, x = joinWith ',' parts ∧ parts ≠ [] ∧
      ∀ p ∈ parts, ',' ∉ p :=
    ⟨partsAt ',' x, (joinWith_partsAt ',' x).symm, partsAt_ne_nil ',' x,
      fun _ => not_mem_of_mem_partsAt⟩
  -- Along the parts: the blanks in front belong to the first and those behind to the last.
  induction parts generalizing x l with
  | nil => exact absurd rfl hne
  | cons part others ih =>
    obtain ⟨hpart, hothers⟩ := List.forall_mem_cons.mp hcommas
    cases others with
    | nil =>
      rw [joinWith_singleton] at hparts
      subst hparts
      have hcomma : ',' ∉ l ++ x ++ r := by
        simp [hl.not_mem_comma, hr.not_mem_comma, hpart]
      rw [partsAt_of_not_mem hcomma, partsAt_of_not_mem hpart, List.map_singleton,
        List.map_singleton, trim_around_blanks hl hr]
    | cons second others =>
      rw [joinWith_cons_cons] at hparts
      have hbehind := ih (x := joinWith ',' (second :: others)) blanks_nil rfl
        (List.cons_ne_nil _ _) hothers
      have hfirst : trim (l ++ part) = trim part := by
        have := trim_around_blanks (x := part) hl blanks_nil
        rwa [List.append_nil] at this
      have hcomma : ',' ∉ l ++ part := by simp [hl.not_mem_comma, hpart]
      have hwhole : l ++ x ++ r = (l ++ part) ++ ',' :: ([] ++ joinWith ',' (second :: others) ++ r) := by
        simp [hparts]
      rw [hwhole, partsAt_around, List.map_append, hbehind, hparts, partsAt_around, List.map_append,
        partsAt_of_not_mem hcomma, partsAt_of_not_mem hpart, List.map_singleton,
        List.map_singleton, hfirst]

/-- A written value as it is read. -/
def valueRead (value : Text) : Text :=
  (unescape value).toOption.getD []

theorem valueRead_eq {value content : Text} (h : unescape value = .ok content) :
    valueRead value = content := by
  rw [valueRead, h]
  rfl

/-- What is read as nothing is nothing. -/
theorem Unescapes.eq_nil {pending : Option Text} {s a : Text} (h : Unescapes pending s a)
    (hnil : a = []) : pending = none ∧ s = [] := by
  induction h with
  | nil => exact ⟨rfl, rfl⟩
  | opening _ ih => cases (ih hnil).1
  | char _ _ _ => cases hnil
  | closing _ _ _ => cases hnil
  | within _ _ _ ih => cases (ih hnil).1

namespace StateList

variable {value content entry state : Text}

/-- The entries of a list as they are written, if there is a list. -/
def written : Option Text → List Text
  | none => []
  | some [] => []
  | some value => partsAt ',' value

/-- The names that an entry of a list spells. -/
def namesIn (entry : Text) : List Text :=
  (partsAt ',' (valueRead entry)).map trim

theorem written_some (hne : value ≠ []) : written (some value) = partsAt ',' value := by
  cases value with
  | nil => exact absurd rfl hne
  | cons c cs => rfl

theorem namesIn_eq (h : unescape entry = .ok content) :
    namesIn entry = (partsAt ',' content).map trim := by
  rw [namesIn, valueRead_eq h]

/-- Blanks around an entry do not count. -/
theorem namesIn_trim (h : Unescapable entry) : namesIn (trim entry) = namesIn entry := by
  obtain ⟨x, hx⟩ := h.trim
  obtain ⟨l, r, hentry, hl, hr, -⟩ := exists_eq_trim entry
  have hwhole : unescape entry = .ok (l ++ x ++ r) := by
    rw [hentry]
    exact unescape_append (unescape_append hl.unescape_eq hx) hr.unescape_eq
  rw [namesIn_eq hx, namesIn_eq hwhole, map_trim_partsAt_around hl hr]

theorem namesIn_of_isStateName (h : isStateName state = true) : namesIn state = [state] := by
  have hentry := isEntry_of_isStateName h
  rw [namesIn_eq (unescape_of_not_mem (not_mem_of_isStateName h (by decide))),
    partsAt_of_not_mem hentry.comma, List.map_singleton, trim_of_trimmed hentry.trimmed]

/-- The names in a list are those that its parts spell. -/
theorem flatMap_namesIn (hne : parts ≠ []) (h : unescape (joinWith ',' parts) = .ok content) :
    parts.flatMap namesIn = (partsAt ',' content).map trim := by
  induction parts generalizing content with
  | nil => exact absurd rfl hne
  | cons part others ih =>
    cases others with
    | nil =>
      rw [joinWith_singleton] at h
      rw [List.flatMap_singleton, namesIn_eq h]
    | cons second others =>
      rw [joinWith_cons_cons] at h
      obtain ⟨a, b, ha, hb, rfl⟩ := exists_of_unescape_around foreign_comma h
      rw [List.flatMap_cons, namesIn_eq ha, ih (List.cons_ne_nil _ _) hb, partsAt_around,
        List.map_append]

/-- **The names of a list are those of its entries.** -/
theorem names_written (h : unescape value = .ok content) (hne : value ≠ []) :
    (written (some value)).flatMap namesIn = (partsAt ',' content).map trim := by
  rw [written_some hne]
  exact flatMap_namesIn (partsAt_ne_nil ',' value) ((joinWith_partsAt ',' value).symm ▸ h)

/-- **The entries spell their names without the blanks around them.** -/
theorem names_entries (h : Unescapable value) :
    (entries value).flatMap namesIn =
      ((written (some value)).filter (trim · ≠ [])).flatMap namesIn := by
  by_cases hnil : value = []
  · rw [hnil]
    rfl
  · have hparts : ∀ part ∈ partsAt ',' value, Unescapable part := by
      rw [← joinWith_partsAt ',' value] at h
      exact (unescapable_joinWith_iff (partsAt_ne_nil ',' value)).mp h
    rw [entries, written_some hnil, List.filter_map, List.flatMap_map]
    exact List.flatMap_congr fun part hpart =>
      namesIn_trim (hparts part (List.mem_of_mem_filter hpart))

end StateList

end SkinMarkup
