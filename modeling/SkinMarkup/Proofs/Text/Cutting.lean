import SkinMarkup.Proofs.Text.Names
import SkinMarkup.Proofs.Text.Search

/-!
# Where a text is cut

A cut depends only on what stands before it and on the word itself: with
anything else behind the word the text is cut at the same place
(`cutAtWord_of_cut`), and a part in which the word does not start is passed over
(`cutAtWord_append_of_not_mem`).
-/

namespace SkinMarkup

variable {sep w c : Char} {word ws s t before after rest : Text}

/-! ## At a character -/

theorem cutAt_append (h : sep ∉ s) (t : Text) : cutAt sep (s ++ sep :: t) = some (s, t) := by
  induction s with
  | nil => simp [cutAt]
  | cons c cs ih =>
    have hc : c ≠ sep := fun e => h (e ▸ List.mem_cons_self)
    have hcs : sep ∉ cs := fun hmem => h (List.mem_cons_of_mem c hmem)
    rw [List.cons_append, cutAt, if_neg hc, ih hcs]
    rfl

theorem cutAtLast_append (h : sep ∉ t) : cutAtLast sep (s ++ sep :: t) = some (s, t) := by
  have hrev : (s ++ sep :: t).reverse = t.reverse ++ sep :: s.reverse := by simp
  rw [cutAtLast, hrev, cutAt_append (by simpa using h)]
  simp

/-! ## At a word -/

theorem after?_eq_none_iff : after? word t = none ↔ ¬ word <+: t := by
  constructor
  · rintro h ⟨rest, rfl⟩
    rw [after?_append] at h
    cases h
  · intro h
    cases hafter : after? word t with
    | none => rfl
    | some rest => exact absurd ⟨rest, (after?_eq_some hafter).symm⟩ h

theorem cutAtWord_cons_of_not_starts (h : ¬ word <+: c :: t) :
    cutAtWord word (c :: t) = (cutAtWord word t).map fun (a, b) => (c :: a, b) := by
  rw [cutAtWord, after?_eq_none_iff.mpr h]

theorem cutAtWord_of_append (word rest : Text) (hword : word ≠ []) :
    cutAtWord word (word ++ rest) = some ([], rest) := by
  obtain ⟨w, ws, rfl⟩ := List.exists_cons_of_ne_nil hword
  rw [List.cons_append, cutAtWord, ← List.cons_append, after?_append]

/-- A part is passed over if the word starts nowhere in it. -/
theorem cutAtWord_append_of_avoids
    (h : ∀ a b, s = a ++ b → b ≠ [] → ¬ word <+: b ++ t) :
    cutAtWord word (s ++ t) = (cutAtWord word t).map fun (a, b) => (s ++ a, b) := by
  induction s with
  | nil => simp
  | cons c cs ih =>
    have hfirst : ¬ word <+: c :: (cs ++ t) := h [] (c :: cs) rfl (List.cons_ne_nil c cs)
    have hothers : ∀ a b, cs = a ++ b → b ≠ [] → ¬ word <+: b ++ t := by
      rintro a b rfl hb
      exact h (c :: a) b rfl hb
    rw [List.cons_append, cutAtWord_cons_of_not_starts hfirst, ih hothers, Option.map_map]
    rfl

theorem cutAtWord_append_of_not_mem (h : w ∉ s) :
    cutAtWord (w :: ws) (s ++ t) = (cutAtWord (w :: ws) t).map fun (a, b) => (s ++ a, b) := by
  apply cutAtWord_append_of_avoids
  rintro a b rfl hb hprefix
  obtain ⟨c, cs, rfl⟩ := List.exists_cons_of_ne_nil hb
  obtain ⟨rfl, -⟩ := List.cons_prefix_cons.mp hprefix
  exact h (List.mem_append_right a List.mem_cons_self)

/-- **A text is cut at the first place where the word stands.** -/
theorem cutAtWord_eq_some_iff (hword : word ≠ []) :
    cutAtWord word t = some (before, after) ↔
      t = before ++ (word ++ after) ∧
        ∀ a b, before = a ++ b → b ≠ [] → ¬ word <+: b ++ (word ++ after) := by
  constructor
  · intro h
    refine ⟨cutAtWord_eq_some h, ?_⟩
    induction t generalizing before with
    | nil =>
      obtain ⟨w, ws, rfl⟩ := List.exists_cons_of_ne_nil hword
      cases h
    | cons c cs ih =>
      by_cases hprefix : word <+: c :: cs
      · obtain ⟨rest, hrest⟩ := hprefix
        rw [← hrest, cutAtWord_of_append word rest hword] at h
        cases h
        intro a b hab hb
        exact absurd (List.append_eq_nil_iff.mp hab.symm).2 hb
      · rw [cutAtWord_cons_of_not_starts hprefix] at h
        simp only [Option.map_eq_some_iff, Prod.mk.injEq, Prod.exists] at h
        obtain ⟨s, t, hst, rfl, rfl⟩ := h
        intro a b hab hb
        cases a with
        | nil =>
          obtain rfl : b = c :: s := hab.symm
          rw [cutAtWord_eq_some hst] at hprefix
          exact hprefix
        | cons d ds =>
          obtain ⟨rfl, rfl⟩ := List.cons.inj hab
          exact ih hst ds b rfl hb
  · rintro ⟨rfl, h⟩
    rw [cutAtWord_append_of_avoids h, cutAtWord_of_append word after hword]
    simp

/-- **What follows the word does not move the cut.** -/
theorem cutAtWord_of_cut (hword : word ≠ []) (h : cutAtWord word t = some (before, after))
    (rest : Text) : cutAtWord word (before ++ (word ++ rest)) = some (before, rest) := by
  obtain ⟨-, hbefore⟩ := (cutAtWord_eq_some_iff hword).mp h
  refine (cutAtWord_eq_some_iff hword).mpr ⟨rfl, ?_⟩
  -- A word that starts before the cut ends before the end of the word that is cut out.
  intro a b hab hb hprefix
  apply hbefore a b hab hb
  have hlength : word.length ≤ (b ++ word).length := by simp
  rw [← List.append_assoc] at hprefix ⊢
  exact (List.prefix_of_prefix_length_le hprefix (List.prefix_append _ _) hlength).trans
    (List.prefix_append _ _)

theorem cutAtWord_eq_none_iff : cutAtWord word t = none ↔ ¬ word <:+: t := by
  rw [← containsWord_iff, containsWord]
  cases cutAtWord word t <;> simp

/-- Brackets in front of the end of a CDATA section do not end it earlier. -/
theorem cutAtWord_cdata (h : ¬ [']', ']', '>'] <:+: s) (rest : Text) :
    cutAtWord [']', ']', '>'] (s ++ ([']', ']', '>'] ++ rest)) = some (s, rest) := by
  refine (cutAtWord_eq_some_iff (List.cons_ne_nil _ _)).mpr ⟨rfl, ?_⟩
  rintro a b rfl hb hprefix
  match b, hb, hprefix with
  | [c], _, hprefix => simp [List.cons_prefix_cons] at hprefix
  | [c, d], _, hprefix => simp [List.cons_prefix_cons] at hprefix
  | c :: d :: e :: b, _, hprefix =>
    simp only [List.cons_append, List.cons_prefix_cons, List.nil_prefix, and_true] at hprefix
    obtain ⟨rfl, rfl, rfl⟩ := hprefix
    exact h ⟨a, b, by simp⟩

theorem not_cdata_end_of_cut (h : cutAtWord [']', ']', '>'] t = some (before, after)) :
    ¬ [']', ']', '>'] <:+: before := by
  obtain ⟨-, hbefore⟩ := (cutAtWord_eq_some_iff (List.cons_ne_nil _ _)).mp h
  rintro ⟨a, b, rfl⟩
  apply hbefore a ([']', ']', '>'] ++ b) (by simp) (by simp)
  rw [List.append_assoc]
  exact List.prefix_append _ _

end SkinMarkup
