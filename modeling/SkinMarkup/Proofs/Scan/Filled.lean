import SkinMarkup.Proofs.Scan.Recut
import SkinMarkup.Proofs.TagText.Filled

/-!
# Tokens with names in them

A start tag with other names in it is a token of the same kind (`IsCut.refill`), and
as long as the names before its first blank are the same it is a tag of the same
element (`localName_refill`).
-/

namespace SkinMarkup

open Template TemplateSymbol

namespace Scan

variable {s : Template}

/-! ## The end of a tag -/

/-- Of the character before a text it matters only whether it is a backslash. -/
theorem cutElement_previous {previous previous' : Char} (h : previous ≠ '\\')
    (h' : previous' ≠ '\\') (quote : Option Char) (t : Text) :
    cutElement previous quote t = cutElement previous' quote t := by
  cases t with
  | nil => cases quote <;> rfl
  | cons c cs => cases quote <;> simp only [cutElement, h, h', ne_eq, not_false_eq_true]

/-- A name is passed over, inside quotes and outside. -/
theorem cutElement_append_name {w : Text} (hw : ∀ c ∈ w, isStateChar c = true) (hne : w ≠ [])
    (previous : Char) {quote : Option Char} (hquote : ∀ q ∈ quote, isStateChar q = false)
    (t : Text) :
    cutElement previous quote (w ++ t) =
      (cutElement 'a' quote t).map fun (a, b) => (w ++ a, b) := by
  induction w generalizing previous with
  | nil => exact absurd rfl hne
  | cons c cs ih =>
    have hc := hw c List.mem_cons_self
    have hstep : cutElement previous quote (c :: (cs ++ t)) =
        (cutElement c quote (cs ++ t)).map fun (a, b) => (c :: a, b) := by
      cases quote with
      | none =>
        have hno : ¬ ((c = '"' ∨ c = '\'') ∧ previous ≠ '\\') := by
          rintro ⟨rfl | rfl, -⟩ <;> cases hc
        rw [cutElement, if_neg (ne_of_isStateChar hc rfl)]
        simp only [if_neg hno]
      | some q =>
        have hno : ¬ (c = q ∧ previous ≠ '\\') :=
          fun h => ne_of_isStateChar hc (hquote q rfl) h.1
        rw [cutElement]
        simp only [if_neg hno]
    rw [List.cons_append, hstep]
    cases cs with
    | nil =>
      have hplain : 'a' ≠ '\\' := by decide
      rw [List.nil_append, cutElement_previous (ne_of_isStateChar hc rfl) hplain]
      rfl
    | cons d ds =>
      rw [ih (fun c hc => hw c (List.mem_cons_of_mem _ hc)) (List.cons_ne_nil _ _), Option.map_map]
      rfl

/-- **A tag ends at the same symbol, whatever the names are.** -/
theorem cutElement_fill (s : Template) (previous : Char) {quote : Option Char}
    (hquote : ∀ q ∈ quote, isStateChar q = false) :
    (∀ names, cutElement previous quote (s.fill names) = none) ∨
      ∃ u v : Template, s = u ++ char '>' :: v ∧ ∀ names,
        cutElement previous quote (s.fill names) = some (u.fill names, v.fill names) := by
  induction s generalizing previous quote with
  | nil => exact Or.inl fun names => by cases quote <;> rfl
  | cons x xs ih =>
    cases x with
    | hole i =>
      have hskip : ∀ names : Names, cutElement previous quote (Template.fill names (hole i :: xs)) =
          (cutElement 'a' quote (Template.fill names xs)).map
            fun (a, b) => ((names i).val ++ a, b) :=
        fun names => cutElement_append_name (fun c hc => (names i).isStateChar hc) (names i).ne_nil
          previous hquote _
      rcases ih 'a' hquote with hnone | ⟨u, v, rfl, hsome⟩
      · exact Or.inl fun names => by rw [hskip, hnone]; rfl
      · exact Or.inr ⟨hole i :: u, v, rfl, fun names => by rw [hskip, hsome]; rfl⟩
    | char c =>
      by_cases hend : quote = none ∧ c = '>'
      · obtain ⟨rfl, rfl⟩ := hend
        exact Or.inr ⟨[], xs, rfl, fun names => by rw [fill_char_cons, cutElement, if_pos rfl]; rfl⟩
      · obtain ⟨quote', hquote', hskip⟩ : ∃ quote' : Option Char,
            (∀ q ∈ quote', isStateChar q = false) ∧ ∀ t, cutElement previous quote (c :: t) =
              (cutElement c quote' t).map fun (a, b) => (c :: a, b) := by
          cases quote with
          | none =>
            refine ⟨if (c = '"' ∨ c = '\'') ∧ previous ≠ '\\' then some c else none, ?_, fun t => ?_⟩
            · intro q hq
              split at hq
              · next h =>
                cases hq
                exact isStateChar_of_isSign (quote_isSign h.1)
              · cases hq
            · rw [cutElement, if_neg fun h => hend ⟨rfl, h⟩]
          | some q =>
            refine ⟨if c = q ∧ previous ≠ '\\' then none else some q, ?_, fun t => by rw [cutElement]⟩
            intro q' hq'
            split at hq'
            · cases hq'
            · cases hq'
              exact hquote q rfl
        rcases ih c hquote' with hnone | ⟨u, v, rfl, hsome⟩
        · exact Or.inl fun names => by rw [fill_char_cons, hskip, hnone]; rfl
        · exact Or.inr ⟨char c :: u, v, rfl, fun names => by rw [fill_char_cons, hskip, hsome]; rfl⟩

/-- A start tag is cut off as an element token. -/
theorem cutTagToken_of_isStart {t text rest : Text} {kind : TokenKind}
    (h : cutToken t = some (kind, text, rest)) (hkind : kind.isStart = true) :
    t.head? ≠ some '!' ∧ t.head? ≠ some '?' ∧ cutTagToken t = some (kind, text, rest) := by
  have hinert : ∀ {inert : TokenKind} {opener closer t : Text}, inert.isStart = false →
      cutEnclosed inert opener closer t ≠ some (kind, text, rest) := by
    intro inert opener closer t hinert hcut
    simp only [cutEnclosed, Option.map_eq_some_iff, Prod.mk.injEq, Prod.exists] at hcut
    obtain ⟨content, after, -, rfl, -⟩ := hcut
    cases hinert.symm.trans hkind
  have hhead : ∀ {c : Char}, after? [c] t = none → t.head? ≠ some c := by
    intro c hafter hc
    obtain ⟨cs, rfl⟩ := List.head?_eq_some_iff.mp hc
    simp [after?] at hafter
  unfold cutToken at h
  split at h
  · exact absurd h (hinert rfl)
  · split at h
    · exact absurd h (hinert rfl)
    · split at h
      · exact absurd h (hinert rfl)
      · next hinstruction =>
        split at h
        · exact absurd h (hinert rfl)
        · next hdeclaration => exact ⟨hhead hdeclaration, hhead hinstruction, h⟩

end Scan

/-- The kind of a tag does not depend on the names in it. -/
theorem TokenKind.ofElement_fill (names names' : Names) (u : Template) :
    ofElement ('<' :: u.fill names ++ ['>']) = ofElement ('<' :: u.fill names' ++ ['>']) := by
  have hslash : isStateChar '/' = false := rfl
  have hstarts : ∀ names : Names, startsWith ['<', '/'] ('<' :: u.fill names ++ ['>']) =
      decide ((u ++ [char '>']).head? = some (char '/')) := by
    intro names
    have hfill : '<' :: u.fill names ++ ['>'] = '<' :: Template.fill names (u ++ [char '>']) := by
      simp
    rw [hfill, Scan.startsWith_slash, decide_eq_decide]
    exact head?_fill_eq_some_iff hslash
  have hends : ∀ names : Names, endsWith ['/', '>'] ('<' :: u.fill names ++ ['>']) =
      decide (u.reverse.head? = some (char '/')) := by
    intro names
    rw [Scan.endsWith_slash, Scan.isSome_before?_slash, reverse_fill, decide_eq_decide]
    exact head?_fill_eq_some_iff hslash
  rw [ofElement, ofElement, hstarts names, hstarts names', hends names, hends names']

namespace Token

variable {token : Token} {s : Template} {names names' : Names}

theorem IsCut.exists_cons (h : token.IsCut) (htext : token.text = s.fill names) :
    ∃ s' : Template, s = char '<' :: s' := by
  obtain ⟨body, hbody, -⟩ := h
  apply List.head?_eq_some_iff.mp
  rw [← head?_fill_eq_some_iff (e := '<') rfl, ← htext, hbody]
  rfl

/-- **A start tag with other names in it is a token of the same kind.** -/
theorem IsCut.refill (h : token.IsCut) (hstart : token.isStart = true)
    (htext : token.text = s.fill names) (names' : Names) :
    IsCut { token with text := s.fill names' } := by
  obtain ⟨s, rfl⟩ := h.exists_cons htext
  obtain ⟨body, hbody, hcut⟩ := h
  obtain rfl : body = s.fill names := by
    rw [htext, fill_char_cons] at hbody
    exact (List.cons.inj hbody).2.symm
  obtain ⟨hmark, hquestion, htag⟩ := Scan.cutTagToken_of_isStart hcut hstart
  simp only [Scan.cutTagToken, Option.map_eq_some_iff, Prod.mk.injEq, Prod.exists] at htag
  obtain ⟨content, rest, helement, hkind, -, rfl⟩ := htag
  have hnoQuote : ∀ q ∈ (none : Option Char), isStateChar q = false := by simp
  rcases Scan.cutElement_fill s '<' hnoQuote with hnone | ⟨u, v, rfl, hsome⟩
  · rw [hnone] at helement
    cases helement
  · rw [hsome, Option.some.injEq, Prod.mk.injEq, fill_eq_nil_iff] at helement
    obtain ⟨rfl, rfl⟩ := helement
    rw [Ne, head?_fill_eq_some_iff rfl] at hmark hquestion
    refine ⟨Template.fill names' (u ++ [char '>']), rfl, ?_⟩
    rw [Scan.cutToken_of_head? (by rwa [Ne, head?_fill_eq_some_iff rfl])
      (by rwa [Ne, head?_fill_eq_some_iff rfl]), Scan.cutTagToken, hsome]
    simp only [Option.map_some, fill_nil, Option.some.injEq, Prod.mk.injEq, and_true]
    refine ⟨?_, by simp⟩
    rw [← hkind, TokenKind.ofElement_fill names' names]

/-- A start tag in which the names before the first blank stay is a tag of the same
element. -/
theorem localName_refill (h : token.IsCut) (hstart : token.isStart = true)
    (htext : token.text = s.fill names)
    (hnames : ∀ i ∈ holes (s.takeWhile (lift (!isSpace ·))), names' i = names i) :
    localName { token with text := s.fill names' } = token.localName := by
  obtain ⟨s, rfl⟩ := h.exists_cons htext
  have hlevel : Level (!isSpace ·) := by
    intro c hc
    exact congrArg (!·) (level_isSpace c hc)
  have htake : ∀ names : Names, (s.fill names).takeWhile (fun c => !(isSpace c || c == '/' || c == '>')) =
      (Template.fill names (s.takeWhile (lift (!isSpace ·)))).takeWhile
        (fun c => !(isSpace c || c == '/' || c == '>')) := by
    intro names
    rw [← takeWhile_fill hlevel, List.takeWhile_takeWhile]
    congr 1
    funext c
    rw [Bool.eq_iff_iff]
    simpa [and_assoc] using fun hspace _ _ => hspace
  have hsame : Template.fill names' (s.takeWhile (lift (!isSpace ·))) =
      Template.fill names (s.takeWhile (lift (!isSpace ·))) := by
    refine fill_congr fun i hi => hnames i ?_
    rw [List.takeWhile_cons_of_pos rfl, holes_char_cons]
    exact hi
  have hname : name { token with text := Template.fill names' (char '<' :: s) } = token.name := by
    have hkind : token.kind = .opening ∨ token.kind = .selfClosing := by
      cases hk : token.kind <;> simp_all [isStart, TokenKind.isStart]
    rcases hkind with hk | hk <;>
      simp only [name, hk, htext, fill_char_cons, List.drop_succ_cons, List.drop_zero, htake, hsame]
  rw [localName, localName, hname]

end Token

end SkinMarkup
