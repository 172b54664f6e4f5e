import Mathlib.Algebra.Group.Nat.Defs
import SkinMarkup.Proofs.Document.Reading
import SkinMarkup.Proofs.Path.Following

/-!
# The element at an offset

`Selects` says which of the element tokens of a text an offset selects, by the
text around the offset alone. The search from the left stops at that token
(`tokensUpTo_of_selects`), and there always is one (`exists_selects`).

For a document this ties both directions to trails: the path at an offset is
that of the trail to the selected element (`pathAt_of_selects`), and the path
of a trail leads to the range of its last tag (`rangeAt_of_trail`).
-/

namespace SkinMarkup

/-- Which token an offset selects, given the tokens before and after it. -/
inductive Selects (t : Text) (offset : Nat) : List Token → Token → List Token → Prop where
  /-- The token on which the offset lies. -/
  | inside {before after : List Token} {token : Token} (hstart : token.start ≤ offset)
      (hstop : offset < token.stop) : Selects t offset before token after
  /-- The first token, from before it. -/
  | first {after : List Token} {token : Token} (hstart : offset < token.start) :
      Selects t offset [] token after
  /-- The token before a gap, if no line ends between it and the offset. -/
  | sameLine {before after : List Token} {token next : Token} (hstop : token.stop ≤ offset)
      (hstart : offset < next.start) (hbreak : hasLineBreak token.stop offset t = false) :
      Selects t offset before token (next :: after)
  /-- The token after a gap, if a line ends between the one before and the
  offset. -/
  | nextLine {before after : List Token} {last token : Token} (hstop : last.stop ≤ offset)
      (hstart : offset < token.start) (hbreak : hasLineBreak last.stop offset t = true) :
      Selects t offset (before ++ [last]) token after
  /-- The last token, from behind it. -/
  | last {before : List Token} {token : Token} (hstop : token.stop ≤ offset) :
      Selects t offset before token []

section

variable {t : Text} {offset : Nat} {before after tokens passed : List Token} {token : Token}

theorem Token.start_le_stop (token : Token) : token.start ≤ token.stop :=
  Nat.le_add_right _ _

theorem tokensUpTo_of_stop_le (h : token.stop ≤ offset) :
    tokensUpTo t offset passed (token :: tokens) = tokensUpTo t offset (token :: passed) tokens := by
  have hstart := token.start_le_stop
  rw [tokensUpTo.eq_def]
  dsimp only
  rw [if_neg (by omega), if_neg (by omega)]

theorem tokensUpTo_of_inside (hstart : token.start ≤ offset) (hstop : offset < token.stop) :
    tokensUpTo t offset passed (token :: tokens) = token :: passed := by
  rw [tokensUpTo.eq_def]
  dsimp only
  rw [if_neg (by omega), if_pos hstop]

theorem tokensUpTo_of_gap {last : Token} (hstart : offset < token.start) :
    tokensUpTo t offset (last :: passed) (token :: tokens) =
      if hasLineBreak last.stop offset t then token :: last :: passed else last :: passed := by
  rw [tokensUpTo, if_pos hstart]

theorem tokensUpTo_append (h : ∀ a ∈ before, a.stop ≤ offset) :
    tokensUpTo t offset passed (before ++ tokens) =
      tokensUpTo t offset (before.reverse ++ passed) tokens := by
  induction before generalizing passed with
  | nil => rfl
  | cons a before ih =>
    obtain ⟨ha, hbefore⟩ := List.forall_mem_cons.mp h
    rw [List.cons_append, tokensUpTo_of_stop_le ha, ih hbefore]
    simp

theorem stop_le_of_pairwise
    (hpair : (before ++ token :: after).Pairwise fun a b => a.stop ≤ b.start)
    (hstart : token.start ≤ offset) : ∀ a ∈ before, a.stop ≤ offset := by
  intro a ha
  have := (List.pairwise_append.mp hpair).2.2 a ha token List.mem_cons_self
  omega

/-- **The search from the left stops at the selected token.** -/
theorem tokensUpTo_of_selects
    (hpair : (before ++ token :: after).Pairwise fun a b => a.stop ≤ b.start)
    (h : Selects t offset before token after) :
    tokensUpTo t offset [] (before ++ token :: after) = token :: before.reverse := by
  have hle := token.start_le_stop
  cases h with
  | inside hstart hstop =>
    rw [tokensUpTo_append (stop_le_of_pairwise hpair hstart), tokensUpTo_of_inside hstart hstop,
      List.append_nil]
  | first hstart => rw [List.nil_append, tokensUpTo, if_pos hstart, List.reverse_nil]
  | @sameLine _ after _ next hstop hstart hbreak =>
    have hbefore := stop_le_of_pairwise hpair (Nat.le_trans hle hstop)
    rw [tokensUpTo_append hbefore, tokensUpTo_of_stop_le hstop, tokensUpTo_of_gap hstart, hbreak]
    simp
  | @nextLine before _ last _ hstop hstart hbreak =>
    have hlast : ∀ a ∈ before, a.stop ≤ offset := by
      rw [List.append_assoc] at hpair
      exact stop_le_of_pairwise hpair (Nat.le_trans last.start_le_stop hstop)
    rw [List.append_assoc, tokensUpTo_append hlast, List.singleton_append,
      tokensUpTo_of_stop_le hstop, tokensUpTo_of_gap hstart, hbreak]
    simp
  | last hstop =>
    have hbefore := stop_le_of_pairwise hpair (Nat.le_trans hle hstop)
    rw [tokensUpTo_append hbefore, tokensUpTo_of_stop_le hstop, tokensUpTo, List.append_nil]

/-- Among tokens of which some have been passed, one is selected. -/
theorem exists_selects_of_passed (tokens : List Token) :
    ∀ {passed : List Token}, passed ++ tokens ≠ [] → (∀ a ∈ passed, a.stop ≤ offset) →
      ∃ before token after, passed ++ tokens = before ++ token :: after ∧
        Selects t offset before token after := by
  induction tokens with
  | nil =>
    intro passed hne hpassed
    rw [List.append_nil] at hne ⊢
    have hlast := hpassed _ (List.getLast_mem hne)
    exact ⟨_, _, [], (List.dropLast_concat_getLast hne).symm, .last hlast⟩
  | cons token tokens ih =>
    intro passed hne hpassed
    by_cases hstart : offset < token.start
    -- In a gap the choice is between the last token that was passed and this one.
    · rcases List.eq_nil_or_concat passed with rfl | ⟨before, last, rfl⟩
      · exact ⟨[], token, tokens, rfl, .first hstart⟩
      · rw [List.concat_eq_append] at hpassed ⊢
        have hlast : last.stop ≤ offset := hpassed last (by simp)
        cases hbreak : hasLineBreak last.stop offset t with
        | true => exact ⟨_, token, tokens, rfl, .nextLine hlast hstart hbreak⟩
        | false =>
          refine ⟨before, last, token :: tokens, ?_, .sameLine hlast hstart hbreak⟩
          rw [List.append_assoc, List.singleton_append]
    · by_cases hstop : offset < token.stop
      · exact ⟨passed, token, tokens, rfl, .inside (by omega) hstop⟩
      · have hpassed' : ∀ a ∈ passed ++ [token], a.stop ≤ offset := by
          simpa [or_imp, forall_and] using ⟨hpassed, by omega⟩
        have happend : passed ++ token :: tokens = passed ++ [token] ++ tokens := by simp
        rw [happend]
        exact ih (by simp) hpassed'

/-- **Every offset selects a token,** if there is any. -/
theorem exists_selects (hne : tokens ≠ []) :
    ∃ before token after, tokens = before ++ token :: after ∧
      Selects t offset before token after := by
  have hpassed : ∀ a ∈ ([] : List Token), a.stop ≤ offset := by rintro a ⟨⟩
  exact exists_selects_of_passed tokens (by simpa using hne) hpassed

end

/-! ## Documents -/

/-- Indices below the half of their range keep their value as signed numbers. -/
theorem signedIndex_of_lt {n : Nat} (h : n < 2 ^ 63) : signedIndex n = n := by
  rw [signedIndex, indexRange]
  exact Int.bmod_eq_of_le (by omega) (by omega)

theorem map_signedIndex {path : List Nat} (h : ∀ n ∈ path, n < 2 ^ 63) :
    path.map signedIndex = path.map fun n : Nat => (n : Int) :=
  List.map_congr_left fun n hn => signedIndex_of_lt (h n hn)

variable {d : Dialect} {state : Option Text} {t : Text} {root tag : Tag} {offset : Nat}
  {trail : Trail} {passed : List Tag}

/-- **The path at an offset is that of the trail to the selected element.** -/
theorem pathAt_of_selects (hplain : Plain t) (h : parseStrict t = .ok root)
    (hoffset : offset ≤ width t) (hthrough : Trail.Through [root] (trail ++ [(passed, tag)]))
    {before after : List Token} {token : Token}
    (hstands : Trail.Stands t trail passed tag before token)
    (helements : (scan t).elements = before ++ token :: after)
    (hselects : Selects t offset before token after) :
    pathAt d state offset t =
      .ok (Trail.pathIfShown (Token.isVisible d state) t (trail ++ [(passed, tag)])) := by
  have hpair := Scan.pairwise_elements t
  rw [helements] at hpair
  have hleafy := leafy_of_parseStrict hplain.unmarked h
  rw [pathAt, if_neg (by omega), h]
  dsimp only
  rw [helements, tokensUpTo_of_selects hpair hselects,
    Trail.pathOf_of_stands hleafy hthrough hstands]

/-- **The path of a trail leads to its last tag.** -/
theorem rangeAt_of_trail (hplain : Plain t) (h : parseStrict t = .ok root)
    (hthrough : Trail.Through [root] (trail ++ [(passed, tag)]))
    (hshown : Trail.allShown (Token.isVisible d state) t (trail ++ [(passed, tag)]) = true)
    {path : List Nat} (hpath : path = Trail.path (Tag.shown (Token.isVisible d state) t)
      (trail ++ [(passed, tag)]))
    (hindices : ∀ n ∈ path, n < 2 ^ 63) :
    rangeAt d state path t = tag.tokenRange t := by
  have hleafy := leafy_of_parseStrict hplain.unmarked h
  have hseek := Trail.seekRange_trail hleafy hthrough hshown []
  rw [rangeAt, map_signedIndex hindices, elements_of_parseStrict hplain h, hpath]
  rwa [List.append_nil] at hseek

end SkinMarkup
