import SkinMarkup.Text.Search

/-!
# Words in a text

`containsWord_iff` turns the search for a word into the order of infixes, so
that a text without a word has no part with it.
-/

namespace SkinMarkup

theorem after?_append (word rest : Text) : after? word (word ++ rest) = some rest := by
  induction word with
  | nil => rfl
  | cons w ws ih => simp [after?, ih]

/-- A cut is found wherever the word stands, though perhaps earlier. -/
theorem isSome_cutAtWord (before word after : Text) :
    (cutAtWord word (before ++ (word ++ after))).isSome = true := by
  induction before with
  | nil =>
    have h := after?_append word after
    rw [List.nil_append]
    cases hw : word ++ after with
    | nil =>
      rw [hw] at h
      simp [cutAtWord, h]
    | cons c cs =>
      rw [hw] at h
      simp [cutAtWord, h]
  | cons c cs ih =>
    rw [List.cons_append, cutAtWord]
    split
    · rfl
    · rw [Option.isSome_map]
      exact ih

/-- **A text contains a word exactly when the word is an infix.** -/
theorem containsWord_iff {word t : Text} : containsWord word t = true ↔ word <:+: t := by
  constructor
  · intro h
    obtain ⟨⟨before, after⟩, hcut⟩ := Option.isSome_iff_exists.mp h
    exact ⟨before, after, by rw [cutAtWord_eq_some hcut, List.append_assoc]⟩
  · rintro ⟨before, after, rfl⟩
    rw [List.append_assoc]
    exact isSome_cutAtWord before word after

theorem containsWord_eq_false_of_part {word s t : Text} (hs : s <:+: t)
    (h : containsWord word t = false) : containsWord word s = false := by
  rw [Bool.eq_false_iff] at h ⊢
  intro hword
  exact h (containsWord_iff.mpr ((containsWord_iff.mp hword).trans hs))

end SkinMarkup
