import Mathlib.Data.List.DropRight
import SkinMarkup.Text.Blank

/-!
# Blanks around a text

`exists_eq_trim` takes a text apart into the blanks at its ends and what is left
between them, and `trim_of_blanks_around` puts any such parts together again.
What else is true of trimming follows from these two.
-/

namespace SkinMarkup

/-- A text of blanks only. -/
def Blanks (t : Text) : Prop :=
  ∀ c ∈ t, isBlank c = true

/-- A text with no blank at either end. -/
structure Trimmed (t : Text) : Prop where
  first : ∀ c ∈ t.head?, isBlank c = false
  last : ∀ c ∈ t.getLast?, isBlank c = false

variable {l m r s t : Text}

theorem blanks_nil : Blanks [] := by
  rintro c ⟨⟩

theorem Blanks.append (hs : Blanks s) (ht : Blanks t) : Blanks (s ++ t) := by
  intro c hc
  rcases List.mem_append.mp hc with hc | hc
  · exact hs c hc
  · exact ht c hc

theorem trimmed_nil : Trimmed [] :=
  ⟨by rintro c ⟨⟩, by rintro c ⟨⟩⟩

/-! ## The end of a text -/

theorem trimEnd_append_blanks (s : Text) (ht : Blanks t) : trimEnd (s ++ t) = trimEnd s := by
  rw [trimEnd, dropEndWhile, List.reverse_append, List.dropWhile_append_of_pos]
  · rfl
  · exact fun c hc => ht c (List.mem_reverse.mp hc)

theorem trimEnd_of_last (h : ∀ c ∈ t.getLast?, isBlank c = false) : trimEnd t = t := by
  refine (List.rdropWhile_eq_self_iff (p := isBlank)).mpr fun hne hlast => ?_
  have hmem := h _ (List.getLast?_eq_some_getLast hne)
  rw [hmem] at hlast
  cases hlast

theorem blanks_takeEndWhile (t : Text) : Blanks (takeEndWhile isBlank t) := by
  intro c hc
  exact List.all_eq_true.mp List.all_takeWhile c (List.mem_reverse.mp hc)

/-- A text is what is left of it at its end and blanks. -/
theorem exists_eq_trimEnd (t : Text) : ∃ r, t = trimEnd t ++ r ∧ Blanks r :=
  ⟨takeEndWhile isBlank t, (dropEndWhile_append_takeEndWhile isBlank t).symm, blanks_takeEndWhile t⟩

theorem last_trimEnd (t : Text) : ∀ c ∈ (trimEnd t).getLast?, isBlank c = false := by
  intro c hc
  have hne : List.rdropWhile isBlank t ≠ [] := by
    intro hnil
    have : (trimEnd t).getLast? = none := by
      rw [trimEnd, dropEndWhile]
      exact congrArg List.getLast? hnil
    rw [this] at hc
    cases hc
  have hlast := List.rdropWhile_last_not isBlank t hne
  have heq : (trimEnd t).getLast? = some ((List.rdropWhile isBlank t).getLast hne) :=
    List.getLast?_eq_some_getLast hne
  rw [heq] at hc
  cases hc
  exact Bool.eq_false_iff.mpr hlast

/-- Blanks at the end of a text are those at the end of its second part, unless
there is nothing else in that part. -/
theorem trimEnd_append (s t : Text) :
    trimEnd (s ++ t) = if trimEnd t = [] then trimEnd s else s ++ trimEnd t := by
  obtain ⟨r, ht, hr⟩ := exists_eq_trimEnd t
  have hlast := last_trimEnd t
  generalize trimEnd t = m at ht hlast
  subst ht
  rw [← List.append_assoc, trimEnd_append_blanks _ hr]
  split
  · next hnil => rw [hnil, List.append_nil]
  · next hne =>
    apply trimEnd_of_last
    intro c hc
    rw [List.getLast?_append_of_ne_nil _ hne] at hc
    exact hlast c hc

theorem trimEnd_trimEnd (t : Text) : trimEnd (trimEnd t) = trimEnd t :=
  trimEnd_of_last (last_trimEnd t)

/-! ## Both ends -/

theorem trimStart_of_blanks_before (hl : Blanks l) (hm : ∀ c ∈ m.head?, isBlank c = false) :
    trimStart (l ++ m) = m := by
  rw [trimStart, List.dropWhile_append_of_pos hl]
  cases m with
  | nil => rfl
  | cons c cs => exact List.dropWhile_cons_of_neg (by simp [hm c rfl])

/-- **What stands between blanks is what trimming leaves.** -/
theorem trim_of_blanks_around (hl : Blanks l) (hm : Trimmed m) (hr : Blanks r) :
    trim (l ++ m ++ r) = m := by
  rw [trim, List.append_assoc]
  cases hcase : m with
  | nil =>
    have hall : trimStart (l ++ ([] ++ r)) = [] := by
      have := trimStart_of_blanks_before (hl.append hr) trimmed_nil.first
      simpa using this
    rw [hall]
    rfl
  | cons c cs =>
    rw [← hcase]
    have hfirst : ∀ c ∈ (m ++ r).head?, isBlank c = false := by
      rw [hcase]
      exact fun x hx => hm.first x (by rw [hcase]; exact hx)
    rw [trimStart_of_blanks_before hl hfirst, trimEnd_append_blanks _ hr, trimEnd_of_last hm.last]

/-- **A text is what trimming leaves of it, between blanks.** -/
theorem exists_eq_trim (t : Text) :
    ∃ l r, t = l ++ trim t ++ r ∧ Blanks l ∧ Blanks r ∧ Trimmed (trim t) := by
  obtain ⟨r, hr, hblanks⟩ := exists_eq_trimEnd (trimStart t)
  have hl : Blanks (t.takeWhile isBlank) := fun c hc => List.all_eq_true.mp List.all_takeWhile c hc
  have ht : t = t.takeWhile isBlank ++ trimStart t := List.takeWhile_append_dropWhile.symm
  refine ⟨t.takeWhile isBlank, r, ?_, hl, hblanks, ?_, last_trimEnd _⟩
  · rw [List.append_assoc, trim, ← hr]
    exact ht
  · intro c hc
    have hstart : ∀ c ∈ (trimStart t).head?, isBlank c = false := by
      intro c hc
      have := List.head?_dropWhile_not isBlank t
      rw [trimStart] at hc
      rw [hc] at this
      exact this
    apply hstart
    rw [trim] at hc
    rw [hr]
    cases hcase : trimEnd (trimStart t) with
    | nil => rw [hcase] at hc; cases hc
    | cons d ds =>
      rw [hcase] at hc
      exact hc

theorem trimmed_trim (t : Text) : Trimmed (trim t) := by
  obtain ⟨l, r, -, -, -, h⟩ := exists_eq_trim t
  exact h

theorem trim_eq_nil_iff : trim t = [] ↔ Blanks t := by
  constructor
  · intro h
    obtain ⟨l, r, ht, hl, hr, -⟩ := exists_eq_trim t
    rw [ht, h, List.append_nil]
    exact hl.append hr
  · intro h
    simpa using trim_of_blanks_around h trimmed_nil blanks_nil

theorem trim_of_trimmed (h : Trimmed t) : trim t = t := by
  simpa using trim_of_blanks_around blanks_nil h blanks_nil

theorem trimEnd_subset (t : Text) : trimEnd t ⊆ t := by
  obtain ⟨r, hr, -⟩ := exists_eq_trimEnd t
  intro c hc
  rw [hr]
  exact List.mem_append_left r hc

theorem trim_part (t : Text) : trim t <:+: t := by
  obtain ⟨l, r, ht, -⟩ := exists_eq_trim t
  exact ⟨l, r, ht.symm⟩

end SkinMarkup
