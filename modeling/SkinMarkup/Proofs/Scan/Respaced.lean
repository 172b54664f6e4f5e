import SkinMarkup.Proofs.Scan.Filled
import SkinMarkup.Proofs.Text.Trim

/-!
# Tokens with other blanks in them

Where a text has blanks, another text may have other blanks (`Respaced`), as long as
both have some. The words that open and close a token have no blanks, and the quote
behind a blank is no escaped one, so **a token with other blanks in it is a token of
the same kind** (`Token.IsCut.respaced`).
-/

namespace SkinMarkup

/-- The same text but for its blanks, which stand in the same places. -/
inductive Respaced : Text → Text → Prop
  | nil : Respaced [] []
  | keep (c : Char) {t t' : Text} : Respaced t t' → Respaced (c :: t) (c :: t')
  | change {b b' t t' : Text} : Blanks b → b ≠ [] → Blanks b' → b' ≠ [] → Respaced t t' →
      Respaced (b ++ t) (b' ++ t')

/-- A word without blanks. -/
def Unspaced (word : Text) : Prop :=
  ∀ c ∈ word, isBlank c = false

instance (word : Text) : Decidable (Unspaced word) :=
  List.decidableBAll (isBlank · = false) word

namespace Respaced

variable {s s' t t' : Text}

theorem refl (t : Text) : Respaced t t := by
  induction t with
  | nil => exact nil
  | cons c cs ih => exact keep c ih

theorem symm (h : Respaced t t') : Respaced t' t := by
  induction h with
  | nil => exact nil
  | keep c _ ih => exact keep c ih
  | change hb hne hb' hne' _ ih => exact change hb' hne' hb hne ih

theorem append (hs : Respaced s s') (ht : Respaced t t') : Respaced (s ++ t) (s' ++ t') := by
  induction hs with
  | nil => exact ht
  | keep c _ ih => exact keep c ih
  | change hb hne hb' hne' _ ih =>
    rw [List.append_assoc, List.append_assoc]
    exact change hb hne hb' hne' ih

theorem of_blanks (hs : Blanks s) (hne : s ≠ []) (hs' : Blanks s') (hne' : s' ≠ []) :
    Respaced s s' := by
  have h := change hs hne hs' hne' nil
  rwa [List.append_nil, List.append_nil] at h

theorem reverse (h : Respaced t t') : Respaced t.reverse t'.reverse := by
  induction h with
  | nil => exact nil
  | keep c _ ih =>
    rw [List.reverse_cons, List.reverse_cons]
    exact ih.append (refl [c])
  | change hb hne hb' hne' _ ih =>
    rw [List.reverse_append, List.reverse_append]
    apply ih.append
    apply of_blanks
    · exact fun c hc => hb c (List.mem_reverse.mp hc)
    · exact fun h => hne (List.reverse_eq_nil_iff.mp h)
    · exact fun c hc => hb' c (List.mem_reverse.mp hc)
    · exact fun h => hne' (List.reverse_eq_nil_iff.mp h)

theorem eq_nil (h : Respaced [] t') : t' = [] := by
  generalize hs : ([] : Text) = s at h
  cases h with
  | nil => rfl
  | keep c => cases hs
  | change hb hne => exact absurd (List.append_eq_nil_iff.mp hs.symm).1 hne

/-- What is not blank stays at the start of a text. -/
theorem exists_cons {c : Char} (hc : isBlank c = false) (h : Respaced (c :: t) s') :
    ∃ t', s' = c :: t' ∧ Respaced t t' := by
  generalize hs : c :: t = s at h
  cases h with
  | nil => cases hs
  | @keep d t t' h =>
    obtain ⟨rfl, rfl⟩ := List.cons.inj hs
    exact ⟨t', rfl, h⟩
  | @change b b' t t' hb hne =>
    cases b with
    | nil => exact absurd rfl hne
    | cons d ds =>
      obtain ⟨rfl, -⟩ := List.cons.inj hs
      rw [hb c List.mem_cons_self] at hc
      cases hc

/-! ## Words -/

theorem exists_after? {word rest : Text} (hword : Unspaced word) (h : Respaced t t')
    (hafter : after? word t = some rest) :
    ∃ rest', after? word t' = some rest' ∧ Respaced rest rest' := by
  induction word generalizing t t' with
  | nil =>
    cases hafter
    exact ⟨t', rfl, h⟩
  | cons w ws ih =>
    have htext := after?_eq_some hafter
    subst htext
    rw [after?_append, Option.some.injEq] at hafter
    obtain ⟨t', rfl, hrest⟩ := h.exists_cons (hword w List.mem_cons_self)
    obtain ⟨rest', hrest', hrespaced⟩ :=
      ih (fun c hc => hword c (List.mem_cons_of_mem w hc)) hrest (after?_append ws _)
    refine ⟨rest', ?_, hrespaced⟩
    rw [after?, if_pos rfl, hrest']

theorem after?_eq_none {word : Text} (hword : Unspaced word) (h : Respaced t t')
    (hafter : after? word t = none) : after? word t' = none := by
  cases hcase : after? word t' with
  | none => rfl
  | some rest' =>
    obtain ⟨rest, hrest, -⟩ := exists_after? hword h.symm hcase
    rw [hafter] at hrest
    cases hrest

theorem startsWith_eq {word : Text} (hword : Unspaced word) (h : Respaced t t') :
    startsWith word t' = startsWith word t := by
  rw [startsWith, startsWith]
  cases hcase : after? word t with
  | none => rw [after?_eq_none hword h hcase]
  | some rest =>
    obtain ⟨rest', hrest', -⟩ := exists_after? hword h hcase
    rw [hrest']
    rfl

theorem endsWith_eq {word : Text} (hword : Unspaced word) (h : Respaced t t') :
    endsWith word t' = endsWith word t := by
  have hreverse : Unspaced word.reverse := fun c hc => hword c (List.mem_reverse.mp hc)
  have hstarts := startsWith_eq hreverse h.reverse
  rw [startsWith, startsWith] at hstarts
  rw [endsWith, endsWith, before?, before?, Option.isSome_map, Option.isSome_map, hstarts]

theorem cutAtWord_append_blanks {word b : Text} (hword : Unspaced word) (hne : word ≠ [])
    (hb : Blanks b) (t : Text) :
    cutAtWord word (b ++ t) = (cutAtWord word t).map fun (before, after) => (b ++ before, after) := by
  induction b with
  | nil => simp
  | cons c cs ih =>
    have hno : after? word (c :: (cs ++ t)) = none := by
      obtain ⟨w, ws, rfl⟩ := List.exists_cons_of_ne_nil hne
      have hw : w ≠ c := by
        rintro rfl
        have hblank := hb w List.mem_cons_self
        rw [hword w List.mem_cons_self] at hblank
        cases hblank
      rw [after?, if_neg hw]
    rw [List.cons_append, cutAtWord, hno]
    dsimp only
    rw [ih fun c hc => hb c (List.mem_cons_of_mem _ hc), Option.map_map]
    rfl

theorem exists_cutAtWord {word before after : Text} (hword : Unspaced word) (hne : word ≠ [])
    (h : Respaced t t') (hcut : cutAtWord word t = some (before, after)) :
    ∃ before' after', cutAtWord word t' = some (before', after') ∧ Respaced before before' ∧
      Respaced after after' := by
  induction h generalizing before with
  | nil =>
    obtain ⟨w, ws, rfl⟩ := List.exists_cons_of_ne_nil hne
    cases hcut
  | @keep c t t' h ih =>
    rw [cutAtWord] at hcut ⊢
    cases hafter : after? word (c :: t) with
    | some rest =>
      obtain ⟨rest', hrest', hrespaced⟩ := exists_after? hword (h.keep c) hafter
      rw [hafter] at hcut
      rw [hrest']
      cases hcut
      exact ⟨[], rest', rfl, nil, hrespaced⟩
    | none =>
      rw [hafter] at hcut
      rw [after?_eq_none hword (h.keep c) hafter]
      simp only [Option.map_eq_some_iff, Prod.mk.injEq, Prod.exists] at hcut
      obtain ⟨before, after, hcut, rfl, rfl⟩ := hcut
      obtain ⟨before', after', hcut', hbefore, hafter⟩ := ih hcut
      refine ⟨c :: before', after', ?_, hbefore.keep c, hafter⟩
      rw [hcut']
      rfl
  | @change b b' t t' hb hbne hb' hbne' h ih =>
    rw [cutAtWord_append_blanks hword hne hb] at hcut
    simp only [Option.map_eq_some_iff, Prod.mk.injEq, Prod.exists] at hcut
    obtain ⟨before, after, hcut, rfl, rfl⟩ := hcut
    obtain ⟨before', after', hcut', hbefore, hafter⟩ := ih hcut
    refine ⟨b' ++ before', after', ?_, hbefore.change hb hbne hb' hbne', hafter⟩
    rw [cutAtWord_append_blanks hword hne hb', hcut']
    rfl

/-! ## Tags -/

/-- Blanks are passed over, inside quotes and outside. -/
theorem cutElement_append_blanks {b : Text} (hb : Blanks b) (hne : b ≠ []) (previous : Char)
    {quote : Option Char} (hquote : ∀ q ∈ quote, isBlank q = false) (t : Text) :
    Scan.cutElement previous quote (b ++ t) =
      (Scan.cutElement ' ' quote t).map fun (before, after) => (b ++ before, after) := by
  induction b generalizing previous with
  | nil => exact absurd rfl hne
  | cons c cs ih =>
    have hc := hb c List.mem_cons_self
    have hcne : ∀ {d : Char}, isBlank d = false → c ≠ d := by
      rintro d hd rfl
      rw [hc] at hd
      cases hd
    have hstep : Scan.cutElement previous quote (c :: (cs ++ t)) =
        (Scan.cutElement c quote (cs ++ t)).map fun (before, after) => (c :: before, after) := by
      cases quote with
      | none =>
        have hno : ¬ ((c = '"' ∨ c = '\'') ∧ previous ≠ '\\') :=
          fun h => h.1.elim (hcne rfl) (hcne rfl)
        rw [Scan.cutElement, if_neg (hcne rfl)]
        simp only [if_neg hno]
      | some q =>
        have hno : ¬ (c = q ∧ previous ≠ '\\') := fun h => hcne (hquote q rfl) h.1
        rw [Scan.cutElement]
        simp only [if_neg hno]
    rw [List.cons_append, hstep]
    cases cs with
    | nil =>
      have hspace : ' ' ≠ '\\' := by decide
      rw [List.nil_append, Scan.cutElement_previous (hcne rfl) hspace]
      rfl
    | cons d ds =>
      rw [ih (fun c hc => hb c (List.mem_cons_of_mem _ hc)) (List.cons_ne_nil _ _), Option.map_map]
      rfl

theorem exists_cutElement {previous : Char} {quote : Option Char} {before after : Text}
    (hquote : ∀ q ∈ quote, isBlank q = false) (h : Respaced t t')
    (hcut : Scan.cutElement previous quote t = some (before, after)) :
    ∃ before' after', Scan.cutElement previous quote t' = some (before', after') ∧
      Respaced before before' ∧ Respaced after after' := by
  induction h generalizing previous quote before with
  | nil => cases quote <;> cases hcut
  | @keep c t t' h ih =>
    -- Behind `c` both texts are read on with the same quote.
    have hnext : ∀ quote' : Option Char, (∀ q ∈ quote', isBlank q = false) → ∀ {before : Text},
        ((Scan.cutElement c quote' t).map fun (before, after) => (c :: before, after)) =
          some (before, after) →
        ∃ before' after', ((Scan.cutElement c quote' t').map
            fun (before, after) => (c :: before, after)) = some (before', after') ∧
          Respaced before before' ∧ Respaced after after' := by
      intro quote' hquote' before hmap
      obtain ⟨⟨inner, rest⟩, hinner, heq⟩ := Option.map_eq_some_iff.mp hmap
      obtain ⟨rfl, rfl⟩ := Prod.mk.inj heq
      obtain ⟨before', after', hcut', hbefore, hafter⟩ := ih hquote' hinner
      exact ⟨c :: before', after', by rw [hcut']; rfl, hbefore.keep c, hafter⟩
    cases quote with
    | none =>
      by_cases hc : c = '>'
      · rw [Scan.cutElement, if_pos hc] at hcut ⊢
        cases hcut
        exact ⟨[], t', rfl, nil, h⟩
      · rw [Scan.cutElement, if_neg hc] at hcut ⊢
        apply hnext _ _ hcut
        intro q hq
        split at hq
        · next hopen => cases hq; rcases hopen.1 with rfl | rfl <;> rfl
        · cases hq
    | some q =>
      rw [Scan.cutElement] at hcut ⊢
      apply hnext _ _ hcut
      intro q' hq'
      split at hq'
      · cases hq'
      · cases hq'
        exact hquote q rfl
  | @change b b' t t' hb hne hb' hne' h ih =>
    rw [cutElement_append_blanks hb hne previous hquote] at hcut
    simp only [Option.map_eq_some_iff, Prod.mk.injEq, Prod.exists] at hcut
    obtain ⟨before, after, hcut, rfl, rfl⟩ := hcut
    obtain ⟨before', after', hcut', hbefore, hafter⟩ := ih hquote hcut
    refine ⟨b' ++ before', after', ?_, hbefore.change hb hne hb' hne', hafter⟩
    rw [cutElement_append_blanks hb' hne' previous hquote, hcut']
    rfl

theorem ofElement_eq (h : Respaced t t') : TokenKind.ofElement t' = TokenKind.ofElement t := by
  have hcloser : Unspaced ['<', '/'] := by decide
  have hempty : Unspaced ['/', '>'] := by decide
  rw [TokenKind.ofElement, TokenKind.ofElement, h.startsWith_eq hcloser, h.endsWith_eq hempty]

/-! ## Tokens -/

variable {kind kind' : TokenKind} {text rest : Text}

theorem exists_cutEnclosed {opener closer : Text} (hcloser : Unspaced closer) (hne : closer ≠ [])
    (h : Respaced t t') (hcut : Scan.cutEnclosed kind opener closer t = some (kind', text, rest)) :
    ∃ text' rest', Scan.cutEnclosed kind opener closer t' = some (kind', text', rest') ∧
      Respaced text text' ∧ Respaced rest rest' := by
  simp only [Scan.cutEnclosed, Option.map_eq_some_iff, Prod.mk.injEq, Prod.exists] at hcut
  obtain ⟨content, after, hcut, rfl, rfl, rfl⟩ := hcut
  obtain ⟨content', after', hcut', hcontent, hafter⟩ := exists_cutAtWord hcloser hne h hcut
  refine ⟨opener ++ content' ++ closer, after', ?_, ?_, hafter⟩
  · rw [Scan.cutEnclosed, hcut']
    rfl
  · exact ((refl opener).append hcontent).append (refl closer)

theorem exists_cutTagToken (h : Respaced t t')
    (hcut : Scan.cutTagToken t = some (kind, text, rest)) :
    ∃ text' rest', Scan.cutTagToken t' = some (kind, text', rest') ∧ Respaced text text' ∧
      Respaced rest rest' := by
  simp only [Scan.cutTagToken, Option.map_eq_some_iff, Prod.mk.injEq, Prod.exists] at hcut
  obtain ⟨content, after, hcut, rfl, rfl, rfl⟩ := hcut
  obtain ⟨content', after', hcut', hcontent, hafter⟩ := exists_cutElement (by simp) h hcut
  have htext : Respaced ('<' :: content ++ ['>']) ('<' :: content' ++ ['>']) :=
    (hcontent.keep '<').append (refl ['>'])
  refine ⟨'<' :: content' ++ ['>'], after', ?_, htext, hafter⟩
  rw [Scan.cutTagToken, hcut', ← htext.ofElement_eq]
  rfl

/-- **A token is cut off at the same place, whatever the blanks are.** -/
theorem exists_cutToken (h : Respaced t t')
    (hcut : Scan.cutToken t = some (kind, text, rest)) :
    ∃ text' rest', Scan.cutToken t' = some (kind, text', rest') ∧ Respaced text text' ∧
      Respaced rest rest' := by
  have hcomment : Unspaced ['!', '-', '-'] := by decide
  have hcdata : Unspaced ['!', '[', 'C', 'D', 'A', 'T', 'A', '['] := by decide
  have hinstruction : Unspaced ['?'] := by decide
  have hdeclaration : Unspaced ['!'] := by decide
  unfold Scan.cutToken at hcut ⊢
  split at hcut
  · next inner hafter =>
    obtain ⟨inner', hafter', hinner⟩ := exists_after? hcomment h hafter
    rw [hafter']
    exact exists_cutEnclosed (by decide) (List.cons_ne_nil _ _) hinner hcut
  · next hafter =>
    rw [after?_eq_none hcomment h hafter]
    split at hcut
    · next inner hafter =>
      obtain ⟨inner', hafter', hinner⟩ := exists_after? hcdata h hafter
      rw [hafter']
      exact exists_cutEnclosed (by decide) (List.cons_ne_nil _ _) hinner hcut
    · next hafter =>
      rw [after?_eq_none hcdata h hafter]
      split at hcut
      · next inner hafter =>
        obtain ⟨inner', hafter', hinner⟩ := exists_after? hinstruction h hafter
        rw [hafter']
        exact exists_cutEnclosed (by decide) (List.cons_ne_nil _ _) hinner hcut
      · next hafter =>
        rw [after?_eq_none hinstruction h hafter]
        split at hcut
        · next inner hafter =>
          obtain ⟨inner', hafter', hinner⟩ := exists_after? hdeclaration h hafter
          rw [hafter']
          exact exists_cutEnclosed (by decide) (List.cons_ne_nil _ _) hinner hcut
        · next hafter =>
          rw [after?_eq_none hdeclaration h hafter]
          exact exists_cutTagToken h hcut

end Respaced

/-- **A token with other blanks in it is a token of the same kind.** -/
theorem Token.IsCut.respaced {token : Token} {text : Text} (h : token.IsCut)
    (htext : Respaced token.text text) : Token.IsCut { token with text } := by
  obtain ⟨body, hbody, hcut⟩ := h
  rw [hbody] at htext
  obtain ⟨body', rfl, hrespaced⟩ := htext.exists_cons rfl
  obtain ⟨text', rest', hcut', -, hrest⟩ := hrespaced.exists_cutToken hcut
  obtain rfl := hrest.eq_nil
  have hsource := Scan.cutToken_source hcut'
  rw [List.append_nil] at hsource
  subst hsource
  exact ⟨body', rfl, hcut'⟩

end SkinMarkup
