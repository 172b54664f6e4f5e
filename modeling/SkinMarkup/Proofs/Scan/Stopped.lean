import SkinMarkup.Proofs.Scan.Tiling

/-!
# Revising a text that was not scanned to its end

Where a scan fails, a remainder of the text has not been looked at. A revision copies
it, and then the tag of the root may be edited in the text that came out. That text is
scanned again, and other tokens stand before the remainder now, or none at all.

The edit of the root does not touch the remainder (`suffix_editRoot`): if the tokens
that were replaced are element tokens again, then no token of the new text reaches
into the remainder (`BehindRoot.revise`), and the remainder does not start with a root
itself (`behindRoot_of_failure`).
-/

namespace SkinMarkup

/-- A text that is cut off as an element token. -/
def IsElementText (text : Text) : Prop :=
  ∃ body kind, text = '<' :: body ∧ Scan.cutToken body = some (kind, text, []) ∧
    kind.isElement = true

theorem Token.IsCut.isElementText {token : Token} (h : token.IsCut)
    (helement : token.isElement = true) : IsElementText token.text := by
  obtain ⟨body, htext, hcut⟩ := h
  exact ⟨body, token.kind, htext, hcut, helement⟩

/-- `rest` stands behind the root of a text, if the text has a root; also after a gap
before the text. -/
def BehindRoot (rest t : Text) : Prop :=
  ∀ offset gap before token after, '<' ∉ gap →
    Segment.splitAtElement (Scan.scanFrom offset 0 (gap ++ t)).segments =
      some (before, token, after) →
    token.isStart = true →
    rest <:+ Segment.sourceAll after ++ (Scan.scanFrom offset 0 (gap ++ t)).tail

/-! ## What may stand before a remainder -/

theorem Scan.segments_scanFrom_of_failure {gap cs : Text} (offset depth : Nat) (hgap : '<' ∉ gap)
    (hfail : ((cutToken cs).bind fun cut => cut.1.depthAfter depth) = none) :
    (scanFrom offset depth (gap ++ '<' :: cs)).segments = [] := by
  have hin : ∀ c ∈ gap, (c != '<') = true := by
    intro c hc
    rw [bne_iff_ne]
    rintro rfl
    exact hgap hc
  have hend : ∀ c ∈ ('<' :: cs).head?, (c != '<') = false := by
    rintro c ⟨⟩
    rfl
  rw [scanFrom_of_failure (dropWhile_append_eq_right hin hend) hfail]

section

variable {rest t text : Text}

theorem BehindRoot.gap {gap : Text} (hgap : '<' ∉ gap) (h : BehindRoot rest t) :
    BehindRoot rest (gap ++ t) := by
  intro offset gap' before token after hgap' hsplit hstart
  rw [← List.append_assoc] at hsplit ⊢
  exact h offset (gap' ++ gap) before token after (by simp [hgap, hgap']) hsplit hstart

/-- Behind a token that starts no element stands what stands behind it in the rest. -/
theorem BehindRoot.inert {token : Token} (hcut : token.IsCut) (hinert : token.isElement = false)
    (h : BehindRoot rest t) : BehindRoot rest (token.text ++ t) := by
  intro offset gap before root after hgap hsplit hstart
  obtain ⟨body, htext, htoken⟩ := hcut
  have hdepth : token.kind.depthAfter 0 = some 0 := by
    rw [Token.isElement] at hinert
    cases hkind : token.kind <;> rw [hkind] at hinert <;> first | rfl | cases hinert
  have hscan := Scan.scanFrom_append_cons offset hgap (Scan.cutToken_append htoken t) hdepth
  rw [← List.cons_append, ← htext] at hscan
  rw [hscan] at hsplit ⊢
  have hself : Token.isElement ⟨token.kind, offset + width gap, token.text⟩ = false := hinert
  rw [Segment.splitAtElement, if_neg (by simp [hself]), Option.map_eq_some_iff] at hsplit
  obtain ⟨⟨before', root', after'⟩, hsplit, heq⟩ := hsplit
  cases heq
  exact h _ [] before' root after (by simp) hsplit hstart

/-- Behind an element token stands everything. -/
theorem behindRoot_element (htext : IsElementText text) (hrest : rest <:+ t) :
    BehindRoot rest (text ++ t) := by
  intro offset gap before root after hgap hsplit hstart
  obtain ⟨body, kind, rfl, hcut, helement⟩ := htext
  have hmore := Scan.cutToken_append hcut t
  cases hdepth : kind.depthAfter 0 with
  | none =>
    -- An end tag where nothing is open stops the scan.
    have hfail := Scan.segments_scanFrom_of_failure offset 0 hgap
      (by rw [hmore, Option.bind_some, hdepth])
    rw [List.cons_append, hfail] at hsplit
    cases hsplit
  | some depth =>
    have hscan := Scan.scanFrom_append_cons offset hgap hmore hdepth
    rw [List.cons_append] at hsplit ⊢
    rw [hscan] at hsplit ⊢
    have hself : Token.isElement ⟨kind, offset + width gap, '<' :: body⟩ = true := helement
    rw [Segment.splitAtElement, if_pos hself] at hsplit
    cases hsplit
    have hsource := Scan.source_scanFrom (offset + width gap + width ('<' :: body)) depth t
    rw [← hsource] at hrest
    exact hrest

end

/-- Where no token starts inside some elements, no root starts. -/
theorem behindRoot_of_failure {depth : Nat} {gap cs : Text} (hgap : '<' ∉ gap)
    (hfail : ((Scan.cutToken cs).bind fun cut => cut.1.depthAfter depth) = none) (rest : Text) :
    BehindRoot rest (gap ++ '<' :: cs) := by
  intro offset gap' before token after hgap' hsplit _
  have hfail : ((Scan.cutToken cs).bind fun cut => cut.1.depthAfter 0) = none := by
    rw [Option.bind_eq_none_iff] at hfail ⊢
    intro cut hcut
    have := hfail cut hcut
    cases hkind : cut.1 <;> rw [hkind] at this <;> first | rfl | cases this
  rw [← List.append_assoc, Scan.segments_scanFrom_of_failure offset 0 (by simp [hgap, hgap']) hfail]
    at hsplit
  cases hsplit

/-! ## Revisions -/

/-- A revision that leaves tokens that start no element as they are and replaces the
others by element tokens. -/
structure RevisesElements {σ : Type} (act : σ → Token → σ × Action) (tokens : List Token) :
    Prop where
  others : ∀ memory token, token.isStart = false → (act memory token).2 = .keep
  starts : ∀ memory, ∀ token ∈ tokens, token.isStart = true →
    ∀ tag, (act memory token).2 = .replace tag → IsElementText tag

section

variable {σ : Type} {act : σ → Token → σ × Action} {rest t tail : Text}

theorem suffix_revise_append (hrest : rest <:+ tail) (memory : σ) (segments : List Segment) :
    rest <:+ Segment.revise act memory segments ++ tail :=
  hrest.trans (List.suffix_append _ _)

section

variable {s : Segment} {others : List Segment} {memory : σ} (hs : s.IsCut)

include hs

/-- An element token with anything behind it that ends with the remainder. -/
theorem behindRoot_gap_element {text more : Text} (htext : IsElementText text) (hmore : rest <:+ more) :
    BehindRoot rest (s.gap ++ (text ++ more)) :=
  (behindRoot_element htext hmore).gap hs.gap

variable (hrest : rest <:+ tail)

include hrest

/-- A token that starts an element is the root wherever it stays. Only if it is erased
the root stands behind it. -/
theorem behindRoot_revise_start (hstart : s.token.isStart = true)
    (hreplace : ∀ tag, (act memory s.token).2 = .replace tag → IsElementText tag)
    (hafter : ∀ memory after, after <:+ others →
      BehindRoot rest (Segment.revise act memory after ++ tail)) :
    BehindRoot rest (Segment.revise act memory (s :: others) ++ tail) := by
  have hself := hs.token.isElementText (Token.isElement_of_isStart hstart)
  have hwhole : BehindRoot rest (s.source ++ Segment.sourceAll others ++ tail) := by
    rw [Segment.source, List.append_assoc, List.append_assoc]
    exact behindRoot_gap_element hs hself (hrest.trans (List.suffix_append _ _))
  rcases hnext : act memory s.token with ⟨memory', action⟩
  cases action with
  | keep =>
    rw [Segment.revise_of_keep hnext, Segment.source, List.append_assoc, List.append_assoc]
    exact behindRoot_gap_element hs hself (suffix_revise_append hrest _ _)
  | replace tag =>
    rw [Segment.revise_of_replace hnext, List.append_assoc, List.append_assoc]
    exact behindRoot_gap_element hs (hreplace tag (by rw [hnext]))
      (suffix_revise_append hrest _ _)
  | pass =>
    cases hsplit : Segment.splitAfter s.token others with
    | none =>
      rw [Segment.revise_of_pass_none hnext hsplit]
      exact hwhole
    | some parts =>
      rw [Segment.revise_of_pass hnext hsplit, Segment.source]
      simp only [List.append_assoc]
      exact behindRoot_gap_element hs hself
        ((suffix_revise_append hrest _ _).trans (List.suffix_append _ _))
  | erase =>
    cases hsplit : Segment.splitAfter s.token others with
    | none =>
      rw [Segment.revise_of_erase_none hnext hsplit]
      exact hwhole
    | some parts =>
      have hsuffix : parts.2 <:+ others := by
        rw [Segment.splitAfter_eq_some hsplit]
        exact List.suffix_append _ _
      rw [Segment.revise_of_erase hnext hsplit, List.append_assoc]
      exact (hafter memory' parts.2 hsuffix).gap fun hmem => hs.gap (trimEnd_subset s.gap hmem)

/-- Any other token is kept. -/
theorem behindRoot_revise_other (hkeep : (act memory s.token).2 = .keep)
    (hafter : ∀ memory, BehindRoot rest (Segment.revise act memory others ++ tail)) :
    BehindRoot rest (Segment.revise act memory (s :: others) ++ tail) := by
  rw [Segment.revise_of_keep (Prod.ext rfl hkeep), Segment.source, List.append_assoc,
    List.append_assoc]
  by_cases hself : s.token.isElement = true
  · exact behindRoot_gap_element hs (hs.token.isElementText hself)
      (suffix_revise_append hrest _ _)
  · exact ((hafter _).inert hs.token (by simpa using hself)).gap hs.gap

end

/-- **A revised text has its remainder behind its root.** -/
theorem BehindRoot.revise {segments : List Segment} (hcut : ∀ s ∈ segments, s.IsCut)
    (hact : RevisesElements act (segments.map (·.token))) (htail : BehindRoot rest tail)
    (hrest : rest <:+ tail) (memory : σ) :
    BehindRoot rest (Segment.revise act memory segments ++ tail) := by
  induction hlength : segments.length using Nat.strong_induction_on generalizing memory segments with
  | _ length ih =>
    subst hlength
    cases segments with
    | nil =>
      rw [Segment.revise_nil]
      exact htail
    | cons s others =>
      obtain ⟨hs, hothers⟩ := List.forall_mem_cons.mp hcut
      have hafter : ∀ memory after, after <:+ others →
          BehindRoot rest (Segment.revise act memory after ++ tail) := by
        intro memory after hsuffix
        refine ih _ (Nat.lt_succ_of_le hsuffix.length_le) (fun s hs => hothers s (hsuffix.subset hs))
          ⟨hact.others, fun memory token hmem => ?_⟩ memory rfl
        exact hact.starts memory token
          (List.mem_cons_of_mem _ (List.map_subset _ hsuffix.subset hmem))
      cases hstart : s.token.isStart with
      | true =>
        exact behindRoot_revise_start hs hrest hstart
          (hact.starts memory s.token List.mem_cons_self hstart) hafter
      | false =>
        exact behindRoot_revise_other hs hrest (hact.others memory s.token hstart) fun memory =>
          hafter memory others List.suffix_rfl

/-- An edit of the root does not touch what stands behind the root. -/
theorem BehindRoot.suffix_editRoot (h : BehindRoot rest t) (hrest : rest <:+ t)
    (edit : Token → Option Text) : rest <:+ (editRoot edit t).getD t := by
  cases hedit : editRoot edit t with
  | none => exact hrest
  | some edited =>
    obtain ⟨split, hsplit, hedit⟩ := Option.bind_eq_some_iff.mp hedit
    obtain ⟨tag, -, hedit⟩ := Option.bind_eq_some_iff.mp hedit
    cases hedit
    obtain ⟨⟨before, root, after⟩, hfirst, hsplit⟩ := Option.bind_eq_some_iff.mp hsplit
    dsimp only at hsplit
    split at hsplit
    · next hstart =>
      cases hsplit
      exact (h 0 [] before root after (by simp) hfirst hstart).trans (List.suffix_append _ _)
    · cases hsplit

end

/-! ## Texts whose scan fails -/

section

variable {t : Text} {failure : Nat}

theorem dropWidth_width_append (s t : Text) : dropWidth (width s) (s ++ t) = t := by
  induction s with
  | nil => cases t <;> rfl
  | cons c cs ih =>
    have hc : 0 < c.utf8Size := Char.utf8Size_pos c
    obtain ⟨n, hn⟩ : ∃ n, c.utf8Size + width cs = n + 1 := ⟨c.utf8Size + width cs - 1, by omega⟩
    have hrest : n + 1 - c.utf8Size = width cs := by omega
    rw [List.cons_append, width_cons, hn, dropWidth, hrest, ih]

/-- What stands from the failure of a scan on has not been divided into tokens. -/
theorem Scan.exists_remainder (h : (scan t).failure = some failure) :
    ∃ gap cs, (scan t).tail = gap ++ '<' :: cs ∧ '<' ∉ gap ∧ dropWidth failure t = '<' :: cs ∧
      ((cutToken cs).bind fun cut => cut.1.depthAfter (scan t).depth) = none := by
  have htail := tail_scan t
  rw [h] at htail
  obtain ⟨gap, cs, htail, hgap, hfailure, -⟩ := htail
  refine ⟨gap, cs, htail, hgap, ?_, ?_⟩
  · have hsource : (Segment.sourceAll (scan t).segments ++ gap) ++ '<' :: cs = t := by
      rw [List.append_assoc, ← htail]
      exact source_scan t
    rw [hfailure, ← dropWidth_width_append (Segment.sourceAll (scan t).segments ++ gap) ('<' :: cs),
      hsource]
  · -- Otherwise the tail would have had a token.
    rw [Option.bind_eq_none_iff]
    rintro ⟨kind, text, rest⟩ hcut
    by_contra hne
    obtain ⟨depth, hdepth⟩ := Option.ne_none_iff_exists'.mp hne
    have hdivides := (divides_scanFrom 0 0 t).tail 0
    rw [← scan, htail, scanFrom_append_cons 0 hgap hcut hdepth] at hdivides
    cases congrArg Scan.segments hdivides

/-- **The remainder survives a revision and an edit of the root behind it.** -/
theorem suffix_editRoot_reviseText {σ : Type} {act : σ → Token → σ × Action}
    (h : (scan t).failure = some failure) (hact : RevisesElements act (scan t).tokens)
    (memory : σ) (edit : Token → Option Text) :
    dropWidth failure t <:+
      (editRoot edit (reviseText act memory t).text).getD (reviseText act memory t).text := by
  obtain ⟨gap, cs, htail, hgap, hremainder, hfail⟩ := Scan.exists_remainder h
  rw [hremainder]
  have hrest : '<' :: cs <:+ (scan t).tail := htail ▸ List.suffix_append gap ('<' :: cs)
  have hbehind : BehindRoot ('<' :: cs) (scan t).tail :=
    htail ▸ behindRoot_of_failure hgap hfail ('<' :: cs)
  exact (hbehind.revise (Scan.divides_scanFrom 0 0 t).isCut hact hrest memory).suffix_editRoot
    (suffix_revise_append hrest memory _) edit

end

end SkinMarkup
