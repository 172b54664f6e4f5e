import SkinMarkup.Proofs.Namespace.UnusedTag

/-!
# Texts without unused prefixes

Cleaning a text gives its start tags other texts and leaves everything else where it
is (`cleanNamespaces_eq`), also where the scan fails. Which declarations go is decided
by the prefixes of the element tokens alone. So two texts with the same segments, but
for declarations that go, come to the same (`cleanNamespaces_of_alike`), and cleaning
a text whose start tags are laid out leaves nothing to clean
(`LaidOut.cleanNamespaces_text`).
-/

namespace SkinMarkup

/-! ## Used prefixes -/

theorem mem_usedPrefixes {tokens : List Token} {p : Text} :
    p ∈ usedPrefixes tokens ↔
      ∃ token ∈ tokens, token.isElement = true ∧ token.nsPrefix? = some p := by
  rw [usedPrefixes, List.mem_filterMap]
  simp only [List.mem_filter, and_assoc]

/-- The prefixes of the element tokens in segments. -/
def Segment.used (segments : List Segment) : List Text :=
  usedPrefixes (segments.map (·.token))

theorem used_scan (t : Text) : usedPrefixes (scan t).tokens = Segment.used (scan t).segments := rfl

namespace Segment

theorem used_cons (s : Segment) (segments : List Segment) :
    used (s :: segments) =
      (if s.token.isElement then s.token.nsPrefix? else none).toList ++ used segments := by
  rw [used, used, usedPrefixes, usedPrefixes, List.map_cons, List.filter_cons]
  cases s.token.isElement with
  | false => rfl
  | true =>
    rw [if_pos rfl, if_pos rfl, List.filterMap_cons]
    cases s.token.nsPrefix? <;> rfl

/-- Where tokens stand does not matter. -/
theorem used_map_unplaced (segments : List Segment) : used (segments.map unplaced) = used segments := by
  induction segments with
  | nil => rfl
  | cons s segments ih =>
    rw [List.map_cons, used_cons, used_cons, ih]
    rfl

/-! ## Cleaned segments -/

/-- A segment whose start tag has no declarations of prefixes that are not used. -/
def cleaned (used : List Text) (s : Segment) : Segment :=
  if s.token.isStart then s.retag (dropUnused used s.token.text) else s

theorem cleaned_of_isStart {s : Segment} (h : s.token.isStart = true) (used : List Text) :
    s.cleaned used = s.retag (dropUnused used s.token.text) := by
  rw [cleaned, h, if_pos rfl]

theorem cleaned_of_not_isStart {s : Segment} (h : s.token.isStart = false) (used : List Text) :
    s.cleaned used = s := by
  rw [cleaned, h]
  exact if_neg Bool.false_ne_true

theorem sourceAll_map_cleaned_unplaced (used : List Text) (segments : List Segment) :
    sourceAll ((segments.map unplaced).map (cleaned used)) =
      sourceAll (segments.map (cleaned used)) := by
  induction segments with
  | nil => rfl
  | cons s segments ih =>
    rw [List.map_cons, List.map_cons, List.map_cons, sourceAll_cons, sourceAll_cons, ih]
    cases hstart : s.token.isStart with
    | true => rw [cleaned_of_isStart hstart, cleaned_of_isStart (s := s.unplaced) hstart]; rfl
    | false =>
      rw [cleaned_of_not_isStart hstart, cleaned_of_not_isStart (s := s.unplaced) hstart]
      rfl

end Segment

/-- **Cleaning a text cleans its segments.** The text behind them stays, and the outcome
is complete if the scan is clean. -/
theorem cleanNamespaces_eq (t : Text) :
    cleanNamespaces t =
      ⟨Segment.sourceAll ((scan t).segments.map (.cleaned (Segment.used (scan t).segments))) ++
        (scan t).tail, (scan t).isClean⟩ := by
  rw [cleanNamespaces, used_scan]
  generalize Segment.used (scan t).segments = used
  have hrevise : ∀ segments : List Segment,
      Segment.revise (fun (_ : Unit) token =>
        ((), if token.isStart then .replace (dropUnused used token.text) else .keep)) () segments =
          Segment.sourceAll (segments.map (.cleaned used)) := by
    intro segments
    induction segments with
    | nil => exact Segment.revise_nil
    | cons s segments ih =>
      rw [List.map_cons, Segment.sourceAll_cons, ← ih]
      cases hstart : s.token.isStart with
      | true =>
        rw [Segment.cleaned_of_isStart hstart]
        exact Segment.revise_of_replace (by rw [hstart]; rfl)
      | false =>
        rw [Segment.cleaned_of_not_isStart hstart]
        exact Segment.revise_of_keep (by rw [hstart]; rfl)
  rw [reviseText, hrevise]

/-! ## Texts that come to the same -/

/-- Segments that are the same but for declarations that go. -/
structure Segment.Alike (used : List Text) (s s' : Segment) : Prop extends Recut s s' where
  nsPrefix : s.token.isElement = true → s'.token.nsPrefix? = s.token.nsPrefix?
  cleaned : (s'.cleaned used).token.text = (s.cleaned used).token.text

namespace Segment

variable {used : List Text} {segments segments' : List Segment}

theorem alike_self {s : Segment} (h : s.token.IsCut) : Alike used s s :=
  ⟨recut_self h, fun _ => rfl, rfl⟩

theorem gap_cleaned (used : List Text) (s : Segment) : (s.cleaned used).gap = s.gap := by
  rw [Segment.cleaned]
  split <;> rfl

theorem used_of_alike (h : List.Forall₂ (Alike used) segments segments') :
    Segment.used segments' = Segment.used segments := by
  induction h with
  | nil => rfl
  | @cons s s' _ _ hs _ ih =>
    have helement : s'.token.isElement = s.token.isElement := by
      rw [Token.isElement, hs.kind, Token.isElement]
    rw [used_cons, used_cons, ih, helement]
    cases hkind : s.token.isElement with
    | false => rfl
    | true => rw [if_pos rfl, if_pos rfl, hs.nsPrefix hkind]

theorem sourceAll_cleaned_of_alike (h : List.Forall₂ (Alike used) segments segments') :
    sourceAll (segments'.map (.cleaned used)) = sourceAll (segments.map (.cleaned used)) := by
  induction h with
  | nil => rfl
  | cons hs _ ih =>
    rw [List.map_cons, List.map_cons, sourceAll_cons, sourceAll_cons, ih, hs.cleaned, gap_cleaned,
      gap_cleaned, hs.gap]

end Segment

/-- **Declarations that go do not matter.** -/
theorem cleanNamespaces_of_alike {t : Text} {segments : List Segment}
    (h : List.Forall₂ (Segment.Alike (Segment.used (scan t).segments)) (scan t).segments segments) :
    cleanNamespaces (Segment.sourceAll segments ++ (scan t).tail) = cleanNamespaces t := by
  have hrecut := h.imp fun _ _ hs => hs.toRecut
  have hsegments := segments_scan_recut hrecut
  have htail := tail_scan_recut hrecut
  have hclean := isClean_scan_recut hrecut
  generalize Segment.sourceAll segments ++ (scan t).tail = u at hsegments htail hclean ⊢
  have hused : Segment.used (scan u).segments = Segment.used (scan t).segments := by
    rw [← Segment.used_map_unplaced, hsegments, Segment.used_map_unplaced, Segment.used_of_alike h]
  rw [cleanNamespaces_eq, cleanNamespaces_eq t, hused, ← Segment.sourceAll_map_cleaned_unplaced,
    hsegments, Segment.sourceAll_map_cleaned_unplaced, Segment.sourceAll_cleaned_of_alike h, htail,
    hclean]

/-! ## Texts whose start tags are laid out -/

/-- A text whose start tags are laid out, as far as it can be scanned. -/
def LaidOut (t : Text) : Prop :=
  ∀ s ∈ (scan t).segments, s.token.isStart = true →
    ∃ (st : StartTag) (selfClosing : Bool), s.token.IsTag [] st selfClosing

namespace Segment

variable {used words : List Text} {s : Segment} {st : StartTag} {selfClosing : Bool}

/-- What becomes of a start tag that is laid out. -/
theorem isTag_cleaned (h : s.token.IsTag words st selfClosing) (used : List Text) :
    (s.cleaned used).token.IsTag words (st.pruned used) selfClosing := by
  rw [cleaned_of_isStart h.isStart, retag, h.text, h.laid.dropUnused_text]
  exact h.pruned

theorem alike_cleaned (h : s.token.IsTag words st selfClosing) (used : List Text) :
    Alike used s (s.cleaned used) := by
  have hcleaned := isTag_cleaned h used
  have hagain := isTag_cleaned hcleaned used
  refine ⟨⟨gap_cleaned used s, hcleaned.kind.trans h.kind.symm, hcleaned.isCut⟩, fun _ => ?_, ?_⟩
  · rw [Token.nsPrefix?, hcleaned.name_eq, Token.nsPrefix?, h.name_eq]
    rfl
  · rw [hagain.text, StartTag.pruned_pruned, hcleaned.text]

end Segment

/-- The segments of a cleaned text. -/
theorem LaidOut.forall₂_cleaned {t : Text} (h : LaidOut t) (used : List Text) :
    List.Forall₂ (Segment.Alike used) (scan t).segments
      ((scan t).segments.map (.cleaned used)) := by
  rw [List.forall₂_map_right_iff, List.forall₂_same]
  intro s hs
  cases hstart : s.token.isStart with
  | true =>
    obtain ⟨st, selfClosing, htag⟩ := h s hs hstart
    exact Segment.alike_cleaned htag used
  | false =>
    rw [Segment.cleaned_of_not_isStart hstart]
    exact Segment.alike_self ((Scan.divides_scanFrom 0 0 t).isCut s hs).token

/-- **Cleaning a text leaves nothing to clean.** -/
theorem LaidOut.cleanNamespaces_text {t : Text} (h : LaidOut t) :
    cleanNamespaces (cleanNamespaces t).text = cleanNamespaces t := by
  rw [cleanNamespaces_eq t, cleanNamespaces_of_alike (h.forall₂_cleaned _), cleanNamespaces_eq]

end SkinMarkup
