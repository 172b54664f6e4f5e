import SkinMarkup.Proofs.State.Lists
import SkinMarkup.Proofs.TagText.Found
import SkinMarkup.State.Remove

/-!
# Names that a tag does not declare

A tag's text declares a state by the value that a search for a name finds, and
such a value stands behind a quote (`exists_of_declaresState`). So a tag in which
the name of a state stands behind commas and dots only does not declare that
state: `Tidy.declaresState_eq_false`.
-/

namespace SkinMarkup

/-! ## Where a new name stands -/

/-- A text in which a word stands nowhere but at the end, behind a comma or a
dot. -/
def Behind (word s : Text) : Prop :=
  ¬ word <:+: s ∨ ∃ front e, (e = ',' ∨ e = '.') ∧ s = front ++ e :: word ∧ ¬ word <:+: front

section

variable {word s u : Text} {e : Char}

/-- A word that is not in a text does not start at its end either. -/
theorem noStart_of_not_part (hword : word ≠ []) (h : ¬ word <:+: s)
    (hu : ∀ c ∈ u.head?, c ∉ word) : NoStart (e :: word) s u := by
  rintro a b rfl hb hstart
  obtain ⟨c, cs, rfl⟩ := List.exists_cons_of_ne_nil hb
  obtain ⟨-, hstart⟩ := List.cons_prefix_cons.mp hstart
  obtain ⟨rest, hrest⟩ := hstart
  rcases List.append_eq_append_iff.mp hrest with ⟨x, rfl, -⟩ | ⟨x, rfl, rfl⟩
  · exact h ⟨a ++ [c], x, by simp⟩
  · cases x with
    | nil => exact h ⟨a ++ [c], [], by simp⟩
    | cons d ds => exact hu d rfl (by simp)

/-- A word that stands behind commas and dots stands behind nothing else. -/
theorem Behind.noStart (h : Behind word s) (hword : isStateName word = true)
    (he : isStateChar e = false) (hcomma : e ≠ ',') (hdot : e ≠ '.')
    (hu : ∀ c ∈ u.head?, isStateChar c = false) : NoStart (e :: word) s u := by
  have hne := ne_nil_of_isStateName hword
  rcases h with h | ⟨front, f, hf, rfl, hfront⟩
  · exact noStart_of_not_part hne h fun c hc => not_mem_of_isStateName hword (hu c hc)
  · have hsign : isStateChar f = false := by rcases hf with rfl | rfl <;> rfl
    have hother : e ≠ f := by rcases hf with rfl | rfl <;> assumption
    refine NoStart.append (noStart_of_not_part hne hfront ?_) (noStart_of_not_mem ?_)
    · rintro c ⟨⟩
      exact not_mem_of_isStateName hword hsign
    · rw [List.mem_cons, not_or]
      exact ⟨hother, not_mem_of_isStateName hword he⟩

/-- Signs in front of a text do not matter. -/
theorem Behind.append_left (h : Behind word s) (hword : isStateName word = true) {signs : Text}
    (hsigns : ∀ c ∈ signs, isStateChar c = false) : Behind word (signs ++ s) := by
  have hpart : ∀ {s : Text}, word <:+: signs ++ s → word <:+: s := by
    intro s hs
    induction signs with
    | nil => exact hs
    | cons c cs ih =>
      obtain ⟨hc, hcs⟩ := List.forall_mem_cons.mp hsigns
      have hskip : word <:+: [] ++ c :: (cs ++ s) := hs
      rcases isInfix_or_isInfix (not_mem_of_isStateName hword hc) hskip with hnil | hskip
      · exact absurd (List.infix_nil.mp hnil) (ne_nil_of_isStateName hword)
      · exact ih hcs hskip
  rcases h with h | ⟨front, f, hf, rfl, hfront⟩
  · exact Or.inl fun hs => h (hpart hs)
  · exact Or.inr ⟨signs ++ front, f, hf, by simp, fun hs => hfront (hpart hs)⟩

theorem behind_of_signs (hword : isStateName word = true)
    (hsigns : ∀ c ∈ s, isStateChar c = false) : Behind word s := by
  have hnil : Behind word [] := Or.inl fun h =>
    ne_nil_of_isStateName hword (List.infix_nil.mp h)
  simpa using hnil.append_left hword hsigns

end

theorem isStateChar_of_isMarkupSpace {c : Char} (h : isMarkupSpace c = true) :
    isStateChar c = false := by
  rcases isMarkupSpace_iff.mp h with rfl | rfl | rfl | rfl <;> rfl

namespace StartTag

variable {t : StartTag} {p : WrittenPiece} {state u : Text} {e : Char} (hstate : isStateName state = true)
  (he : isStateChar e = false) (hcomma : e ≠ ',') (hdot : e ≠ '.')

include hstate he hcomma hdot

theorem noStart_source (hp : p.Regular) (hname : Behind state p.name) (hvalue : Behind state p.value)
    (hu : ∀ c ∈ u.head?, isStateChar c = false) : NoStart (e :: state) p.source u := by
  obtain ⟨m, n, q, hsource, hm, hn, -, -, hq, -⟩ := hp.exists_source
  have hquote : isStateChar q = false := by rcases hq with rfl | rfl <;> rfl
  have hsplit : p.source = (p.lead ++ p.name) ++ (((m ++ '=' :: (n ++ [q])) ++ p.value) ++ [q]) := by
    rw [hsource]
    simp
  have hsigns : ∀ c ∈ m ++ '=' :: (n ++ [q]), isStateChar c = false := by
    intro c hc
    simp only [List.mem_append, List.mem_cons, List.not_mem_nil, or_false] at hc
    rcases hc with hc | rfl | hc | rfl
    · exact isStateChar_of_isMarkupSpace (hm c hc)
    · rfl
    · exact isStateChar_of_isMarkupSpace (hn c hc)
    · exact hquote
  have hassign : ∀ rest, ∀ c ∈ ((m ++ '=' :: (n ++ [q])) ++ rest).head?, isStateChar c = false := by
    intro rest c hc
    refine hsigns c (List.mem_of_mem_head? ?_)
    rw [List.head?_append] at hc
    cases m <;> exact hc
  have hlast : Behind state [q] := behind_of_signs hstate fun c hc => by
    rw [List.mem_singleton.mp hc]
    exact hquote
  rw [hsplit]
  refine NoStart.append ?_ (NoStart.append ?_ ?_)
  · refine (hname.append_left hstate fun c hc => isStateChar_of_isMarkupSpace (hp.lead c hc)).noStart
      hstate he hcomma hdot ?_
    rw [List.append_assoc, List.append_assoc]
    exact hassign _
  · refine (hvalue.append_left hstate hsigns).noStart hstate he hcomma hdot ?_
    rintro c ⟨⟩
    exact hquote
  · exact hlast.noStart hstate he hcomma hdot hu

omit hstate he hcomma hdot in
theorem Regular.isStateChar_end (h : t.Regular) (selfClosing : Bool) :
    ∀ c ∈ t.blanks ++ closer selfClosing, isStateChar c = false := by
  have hcloser : ∀ c ∈ closer selfClosing, isStateChar c = false := by
    cases selfClosing <;> simp [closer, isStateChar]
  intro c hc
  rcases List.mem_append.mp hc with hc | hc
  · exact isStateChar_of_isMarkupSpace (h.blanks c hc)
  · exact hcloser c hc

omit hstate he hcomma hdot in
/-- What follows in a tag after a name or an attribute continues no name. -/
theorem Tidy.head?_onFrom (h : t.Tidy) {pieces : List WrittenPiece} (hpieces : pieces ⊆ t.pieces)
    (selfClosing : Bool) : ∀ c ∈ (t.onFrom selfClosing pieces).head?, isStateChar c = false := by
  cases pieces with
  | nil =>
    intro c hc
    exact h.regular.isStateChar_end selfClosing c (List.mem_of_mem_head? hc)
  | cons p pieces =>
    obtain ⟨hregular, -, hlead⟩ := h.pieces_of_subset hpieces p List.mem_cons_self
    obtain ⟨first, others, hd⟩ := List.exists_cons_of_ne_nil hlead
    obtain ⟨m, n, q, hsource, -⟩ := hregular.exists_source
    intro c hc
    rw [onFrom, List.flatMap_cons, hsource, hd] at hc
    cases hc
    exact isStateChar_of_isMarkupSpace (hregular.lead first (hd ▸ List.mem_cons_self))

theorem Tidy.noStart_onFrom_of_behind (h : t.Tidy) {pieces : List WrittenPiece}
    (hpieces : pieces ⊆ t.pieces)
    (hbehind : ∀ p ∈ t.pieces, Behind state p.name ∧ Behind state p.value) (selfClosing : Bool) :
    NoStart (e :: state) (t.onFrom selfClosing pieces) [] := by
  induction pieces with
  | nil =>
    exact (behind_of_signs hstate (h.regular.isStateChar_end selfClosing)).noStart hstate he hcomma
      hdot nofun
  | cons p pieces ih =>
    rw [List.cons_subset] at hpieces
    obtain ⟨hname, hvalue⟩ := hbehind p hpieces.1
    rw [onFrom, List.flatMap_cons, List.append_assoc]
    refine NoStart.append ?_ (ih hpieces.2)
    rw [List.append_nil]
    exact noStart_source hstate he hcomma hdot (h.regular.pieces p hpieces.1) hname hvalue
      (h.head?_onFrom hpieces.2 selfClosing)

/-- **A name that stands behind commas and dots in the attributes of a tag stands
behind nothing else in the tag.** -/
theorem Tidy.not_isInfix_text (h : t.Tidy) (hname : ¬ state <:+: t.name)
    (hbehind : ∀ p ∈ t.pieces, Behind state p.name ∧ Behind state p.value) (selfClosing : Bool) :
    ¬ e :: state <:+: t.text selfClosing := by
  have hsign : ∀ c ∈ ['<'], isStateChar c = false := by simp [isStateChar]
  have hfront : Behind state (['<'] ++ t.name) := Behind.append_left (Or.inl hname) hstate hsign
  have hall : NoStart (e :: state) (t.text selfClosing) [] := by
    rw [text_eq (l := []) rfl]
    refine NoStart.append ?_ (h.noStart_onFrom_of_behind hstate he hcomma hdot
      (List.Subset.refl _) hbehind selfClosing)
    rw [List.append_nil, upTo, List.flatMap_nil, List.append_nil]
    exact hfront.noStart hstate he hcomma hdot (h.head?_onFrom (List.Subset.refl _) selfClosing)
  rw [← cutAtWord_eq_none_iff]
  exact hall.cutAtWord_eq_none (List.cons_ne_nil _ _)

end StartTag

/-! ## Declarations -/

/-- A state that a tag declares stands behind a quote or a blank. -/
theorem exists_of_declaresState {state tag : Text} (h : declaresState state tag = true) :
    ∃ e, (e = '"' ∨ e = '\'' ∨ isBlank e = true) ∧ e :: state <:+: tag := by
  rw [declaresState] at h
  cases hfind : ValueSlot.find? Word.name tag with
  | none =>
    rw [hfind] at h
    cases h
  | some slot =>
    rw [hfind] at h
    have htrim : trim slot.value = state := by simpa using h
    obtain ⟨hsource, front, q, back, hq, hopened, -⟩ := ValueSlot.enclosed_of_find? hfind
    have htag : tag = front ++ q :: (slot.value ++ slot.after) := by
      rw [← hsource, ValueSlot.source, hopened]
      simp
    obtain ⟨l, r, hvalue, hl, -, -⟩ := exists_eq_trim slot.value
    rw [htrim] at hvalue
    rw [htag, hvalue]
    rcases List.eq_nil_or_concat l with rfl | ⟨blanks, e, rfl⟩
    · exact ⟨q, by tauto, front, r ++ slot.after, by simp⟩
    · exact ⟨e, Or.inr (Or.inr (hl e (by simp))), front ++ q :: blanks, r ++ slot.after, by simp⟩

/-- **A state whose name stands behind commas and dots only is not declared.** -/
theorem StartTag.Tidy.declaresState_eq_false {t : StartTag} {state : Text} (h : t.Tidy)
    (hstate : isStateName state = true) (hname : ¬ state <:+: t.name)
    (hbehind : ∀ p ∈ t.pieces, Behind state p.name ∧ Behind state p.value) (selfClosing : Bool) :
    declaresState state (t.text selfClosing) = false := by
  cases hdeclares : declaresState state (t.text selfClosing) with
  | false => rfl
  | true =>
    obtain ⟨e, he, hpart⟩ := exists_of_declaresState hdeclares
    have hsign : isStateChar e = false ∧ e ≠ ',' ∧ e ≠ '.' := by
      rcases he with rfl | rfl | he
      · decide
      · decide
      · refine ⟨?_, ?_, ?_⟩
        · cases hchar : isStateChar e with
          | false => rfl
          | true => cases (isBlank_of_isStateChar hchar).symm.trans he
        · rintro rfl
          cases he
        · rintro rfl
          cases he
    exact absurd hpart (h.not_isInfix_text hstate hsign.1 hsign.2.1 hsign.2.2 hname hbehind selfClosing)

end SkinMarkup
