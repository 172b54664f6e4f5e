import Mathlib.Data.List.Forall2
import SkinMarkup.Edit.Revision
import SkinMarkup.Proofs.Markup.Revision
import SkinMarkup.Proofs.Markup.Scanning

/-!
# Scanning what has been scanned

A token is cut off a text whatever follows it (`Token.IsCut`), so the segments of a
scan, put together again, are scanned as they were. The same is true of a text in
which some tokens have got other texts, if each of them is a token of the same kind
(`unplaced_scan_recut`): **only the offsets move**, also where the scan fails.
-/

namespace SkinMarkup

/-! ## Tokens -/

/-- The text of a token is cut off as that token. -/
def Token.IsCut (token : Token) : Prop :=
  ∃ body, token.text = '<' :: body ∧ Scan.cutToken body = some (token.kind, token.text, [])

namespace Scan

variable {t text rest : Text} {kind : TokenKind}

theorem cutElement_of_cut {previous : Char} {quote : Option Char} {before after : Text}
    (h : cutElement previous quote t = some (before, after)) (rest : Text) :
    cutElement previous quote (before ++ '>' :: rest) = some (before, rest) := by
  induction t generalizing previous quote before with
  | nil => simp [cutElement] at h
  | cons c cs ih =>
    cases quote with
    | none =>
      by_cases hc : c = '>'
      · simp only [cutElement, if_pos hc, Option.some.injEq, Prod.mk.injEq] at h
        rw [← h.1, List.nil_append, cutElement, if_pos rfl]
      · simp only [cutElement, if_neg hc, Option.map_eq_some_iff, Prod.mk.injEq, Prod.exists] at h
        obtain ⟨s, u, hsu, rfl, rfl⟩ := h
        simp only [List.cons_append, cutElement, if_neg hc, ih hsu, Option.map_some]
    | some q =>
      simp only [cutElement, Option.map_eq_some_iff, Prod.mk.injEq, Prod.exists] at h
      obtain ⟨s, u, hsu, rfl, rfl⟩ := h
      simp only [List.cons_append, cutElement, ih hsu, Option.map_some]

/-- What follows a token behind an opening word has no part in it. -/
theorem exists_body_of_cutEnclosed {word opener closer inner : Text} {kind' : TokenKind}
    (hafter : after? word t = some inner) (hcloser : closer ≠ [])
    (h : cutEnclosed kind opener closer inner = some (kind', text, rest)) :
    ∃ body, t = word ++ body ++ rest ∧
      cutEnclosed kind opener closer body = some (kind', text, []) := by
  simp only [cutEnclosed, Option.map_eq_some_iff, Prod.mk.injEq, Prod.exists] at h ⊢
  obtain ⟨content, after, hcut, rfl, rfl, rfl⟩ := h
  refine ⟨content ++ closer, ?_, content, [], ?_, rfl, rfl, rfl⟩
  · rw [after?_eq_some hafter, cutAtWord_eq_some hcut]
    simp
  · have hself := cutAtWord_of_cut hcloser hcut []
    rwa [List.append_nil] at hself

theorem exists_body_of_cutTagToken (h : cutTagToken t = some (kind, text, rest)) :
    ∃ body, t = body ++ rest ∧ cutTagToken body = some (kind, text, []) := by
  simp only [cutTagToken, Option.map_eq_some_iff, Prod.mk.injEq, Prod.exists] at h
  obtain ⟨content, after, hcut, rfl, rfl, rfl⟩ := h
  refine ⟨content ++ ['>'], ?_, ?_⟩
  · rw [cutElement_eq_some hcut, List.append_assoc, List.singleton_append]
  · rw [cutTagToken, cutElement_of_cut hcut]
    rfl

theorem after?_eq_none_of_append {word body : Text} (h : after? word (body ++ rest) = none) :
    after? word body = none := by
  rw [after?_eq_none_iff] at h ⊢
  exact fun hstart => h (hstart.trans (List.prefix_append body rest))

/-- **What follows a token has no part in it.** -/
theorem exists_body_of_cutToken (h : cutToken t = some (kind, text, rest)) :
    ∃ body, t = body ++ rest ∧ cutToken body = some (kind, text, []) := by
  unfold cutToken at h
  split at h
  · next inner hafter =>
    obtain ⟨body, rfl, hcut⟩ := exists_body_of_cutEnclosed hafter (List.cons_ne_nil _ _) h
    refine ⟨_, rfl, ?_⟩
    rw [cutToken, after?_append]
    exact hcut
  · next hcomment =>
    split at h
    · next inner hafter =>
      obtain ⟨body, rfl, hcut⟩ := exists_body_of_cutEnclosed hafter (List.cons_ne_nil _ _) h
      refine ⟨_, rfl, ?_⟩
      rw [cutToken, after?_eq_none_of_append hcomment, after?_append]
      exact hcut
    · next hcdata =>
      split at h
      · next inner hafter =>
        obtain ⟨body, rfl, hcut⟩ := exists_body_of_cutEnclosed hafter (List.cons_ne_nil _ _) h
        refine ⟨_, rfl, ?_⟩
        rw [cutToken, after?_eq_none_of_append hcomment, after?_eq_none_of_append hcdata,
          after?_append]
        exact hcut
      · next hinstruction =>
        split at h
        · next inner hafter =>
          obtain ⟨body, rfl, hcut⟩ := exists_body_of_cutEnclosed hafter (List.cons_ne_nil _ _) h
          refine ⟨_, rfl, ?_⟩
          rw [cutToken, after?_eq_none_of_append hcomment, after?_eq_none_of_append hcdata,
            after?_eq_none_of_append hinstruction, after?_append]
          exact hcut
        · next hdeclaration =>
          obtain ⟨body, rfl, htag⟩ := exists_body_of_cutTagToken h
          refine ⟨body, rfl, ?_⟩
          rw [cutToken, after?_eq_none_of_append hcomment, after?_eq_none_of_append hcdata,
            after?_eq_none_of_append hinstruction, after?_eq_none_of_append hdeclaration]
          exact htag

theorem isCut_of_cutToken (h : cutToken t = some (kind, text, rest)) (start : Nat) :
    Token.IsCut ⟨kind, start, text⟩ ∧ text ++ rest = '<' :: t := by
  refine ⟨?_, cutToken_source h⟩
  obtain ⟨body, rfl, hcut⟩ := exists_body_of_cutToken h
  have hsource := cutToken_source hcut
  rw [List.append_nil] at hsource
  exact ⟨body, hsource, hcut⟩

end Scan

/-! ## Segments without their places -/

/-- A segment without the place of its token. -/
def Segment.unplaced (s : Segment) : Segment :=
  ⟨s.gap, { s.token with start := 0 }⟩

/-- A scan without the places of its tokens and of its failure. -/
def Scan.unplaced (s : Scan) : Scan :=
  { s with segments := s.segments.map Segment.unplaced, failure := s.failure.map fun _ => 0 }

/-- A segment that is cut off the text that starts with it. -/
structure Segment.IsCut (s : Segment) : Prop where
  gap : '<' ∉ s.gap
  token : s.token.IsCut

/-- The number of open elements after segments, given their number before. -/
def Segment.depthAfter (depth : Nat) : List Segment → Option Nat
  | [] => some depth
  | s :: rest => (s.token.kind.depthAfter depth).bind fun depth => depthAfter depth rest

/-- A segment with another text for its token, which is a token of the same
kind. -/
structure Segment.Recut (s s' : Segment) : Prop where
  gap : s'.gap = s.gap
  kind : s'.token.kind = s.token.kind
  token : s'.token.IsCut

namespace Segment

theorem sourceAll_cons (s : Segment) (rest : List Segment) :
    sourceAll (s :: rest) = s.gap ++ s.token.text ++ sourceAll rest := rfl

theorem sourceAll_append (first second : List Segment) :
    sourceAll (first ++ second) = sourceAll first ++ sourceAll second :=
  List.flatMap_append

theorem sourceAll_map_unplaced (segments : List Segment) :
    sourceAll (segments.map unplaced) = sourceAll segments := by
  rw [sourceAll, List.flatMap_map]
  rfl

theorem depthAfter_of_forall₂ {depth : Nat} {segments segments' : List Segment}
    (h : List.Forall₂ Recut segments segments') :
    depthAfter depth segments' = depthAfter depth segments := by
  induction h generalizing depth with
  | nil => rfl
  | cons hs _ ih =>
    rw [depthAfter, depthAfter, hs.kind]
    exact congrArg _ (funext fun depth => ih)

theorem isCut_of_forall₂ {segments segments' : List Segment} (hcut : ∀ s ∈ segments, s.IsCut)
    (h : List.Forall₂ Recut segments segments') : ∀ s ∈ segments', s.IsCut := by
  induction h with
  | nil => exact hcut
  | cons hs _ ih =>
    intro s hmem
    rcases List.mem_cons.mp hmem with rfl | hmem
    · exact ⟨by rw [hs.gap]; exact (hcut _ List.mem_cons_self).gap, hs.token⟩
    · exact ih (fun s hs => hcut s (List.mem_cons_of_mem _ hs)) s hmem

/-- What does not say where a token stands is true of segments in other places. -/
theorem forall₂_of_unplaced {α : Type} {R : α → Segment → Prop}
    (hplace : ∀ a s, R a s.unplaced ↔ R a s) {as : List α} {segments segments' : List Segment}
    (hsame : segments'.map unplaced = segments.map unplaced) (h : List.Forall₂ R as segments) :
    List.Forall₂ R as segments' := by
  have hunplaced : List.Forall₂ R as (segments.map unplaced) :=
    List.forall₂_map_right_iff.mpr (h.imp fun a s => (hplace a s).mpr)
  rw [← hsame, List.forall₂_map_right_iff] at hunplaced
  exact hunplaced.imp fun a s => (hplace a s).mp

end Segment

namespace Scan

theorem isClean_unplaced (s : Scan) : s.unplaced.isClean = s.isClean := by
  simp [isClean, unplaced]

/-- **Segments are scanned as they are**, and then what follows them. -/
theorem exists_unplaced_scanFrom {segments : List Segment} (hcut : ∀ s ∈ segments, s.IsCut)
    {depth depth' : Nat} (hdepth : Segment.depthAfter depth segments = some depth') (offset : Nat)
    (tail : Text) :
    ∃ offset', (scanFrom offset depth (Segment.sourceAll segments ++ tail)).unplaced =
      { (scanFrom offset' depth' tail).unplaced with
        segments := segments.map Segment.unplaced ++
          (scanFrom offset' depth' tail).unplaced.segments } := by
  induction segments generalizing offset depth with
  | nil =>
    cases hdepth
    exact ⟨offset, rfl⟩
  | cons s rest ih =>
    obtain ⟨depth₁, hfirst, hrest⟩ := Option.bind_eq_some_iff.mp hdepth
    obtain ⟨hgap, body, htext, htoken⟩ := hcut s List.mem_cons_self
    have hcutToken := cutToken_append htoken (Segment.sourceAll rest ++ tail)
    have hscan := scanFrom_append_cons offset hgap hcutToken hfirst
    obtain ⟨offset', hothers⟩ := ih (fun s hs => hcut s (List.mem_cons_of_mem _ hs)) hrest
      (offset + width s.gap + width s.token.text)
    refine ⟨offset', ?_⟩
    have hsource : Segment.sourceAll (s :: rest) ++ tail =
        s.gap ++ '<' :: (body ++ (Segment.sourceAll rest ++ tail)) := by
      rw [Segment.sourceAll_cons, htext]
      simp
    rw [hsource, hscan]
    have hsegments := congrArg Scan.segments hothers
    have htail := congrArg Scan.tail hothers
    have hdepth := congrArg Scan.depth hothers
    have hfailure := congrArg Scan.failure hothers
    simp only [unplaced] at hsegments htail hdepth hfailure
    simp only [unplaced, List.nil_append, List.map_cons, hsegments, htail, hdepth, hfailure,
      List.cons_append]
    rfl

/-- What a scan says about its text: its segments are cut off, and nothing more
can be cut off the tail. -/
structure Divides (depth : Nat) (s : Scan) : Prop where
  isCut : ∀ segment ∈ s.segments, segment.IsCut
  depthAfter : Segment.depthAfter depth s.segments = some s.depth
  tail : ∀ offset, (scanFrom offset s.depth s.tail).unplaced = { s.unplaced with segments := [] }

theorem divides_scanFrom (offset depth : Nat) (t : Text) :
    (scanFrom offset depth t).Divides depth := by
  fun_induction scanFrom offset depth t with
  | case1 offset depth t hrest =>
    refine ⟨by simp, rfl, fun offset' => ?_⟩
    rw [scanFrom_of_dropWhile_eq_nil hrest]
    rfl
  | case2 offset depth t c cs hrest gap start hcut =>
    refine ⟨by simp, rfl, fun offset' => ?_⟩
    rw [scanFrom_of_failure hrest (by rw [hcut]; rfl)]
    rfl
  | case3 offset depth t c cs hrest gap start kind text rest hcut hdepth =>
    refine ⟨by simp, rfl, fun offset' => ?_⟩
    rw [scanFrom_of_failure hrest (by rw [hcut, Option.bind_some, hdepth])]
    rfl
  | case4 offset depth t c cs hrest gap start kind text rest hcut depth' hdepth _ others ih =>
    refine ⟨?_, ?_, ?_⟩
    · intro segment hsegment
      rcases List.mem_cons.mp hsegment with rfl | hsegment
      · refine ⟨fun hmem => ?_, (isCut_of_cutToken hcut start).1⟩
        have hne := List.all_eq_true.mp List.all_takeWhile '<' hmem
        simp at hne
      · exact ih.isCut segment hsegment
    · rw [Segment.depthAfter, hdepth]
      exact ih.depthAfter
    · exact ih.tail

theorem depthAfter_scan (t : Text) :
    Segment.depthAfter 0 (scan t).segments = some (scan t).depth :=
  (divides_scanFrom 0 0 t).depthAfter

end Scan

/-- **Segments in front of the tail of a scan are scanned as they are,** if they leave as
many elements open. -/
theorem unplaced_scan_segments {t : Text} {segments : List Segment}
    (hcut : ∀ s ∈ segments, s.IsCut)
    (hdepth : Segment.depthAfter 0 segments = some (scan t).depth) :
    (scan (Segment.sourceAll segments ++ (scan t).tail)).unplaced =
      { (scan t).unplaced with segments := segments.map Segment.unplaced } := by
  obtain ⟨offset, hscan⟩ := Scan.exists_unplaced_scanFrom hcut hdepth 0 (scan t).tail
  have htail : (Scan.scanFrom offset (scan t).depth (scan t).tail).unplaced =
      { (scan t).unplaced with segments := [] } := (Scan.divides_scanFrom 0 0 t).tail offset
  rw [htail, List.append_nil] at hscan
  exact hscan

/-- **Other texts for some tokens move the others and change nothing else.** -/
theorem unplaced_scan_recut {t : Text} {segments : List Segment}
    (h : List.Forall₂ Segment.Recut (scan t).segments segments) :
    (scan (Segment.sourceAll segments ++ (scan t).tail)).unplaced =
      { (scan t).unplaced with segments := segments.map Segment.unplaced } := by
  have hdivides := Scan.divides_scanFrom 0 0 t
  apply unplaced_scan_segments (Segment.isCut_of_forall₂ hdivides.isCut h)
  exact (Segment.depthAfter_of_forall₂ h).trans hdivides.depthAfter

section

variable {t : Text} {segments : List Segment}
  (h : List.Forall₂ Segment.Recut (scan t).segments segments)

include h

theorem segments_scan_recut :
    (scan (Segment.sourceAll segments ++ (scan t).tail)).segments.map Segment.unplaced =
      segments.map Segment.unplaced :=
  congrArg Scan.segments (unplaced_scan_recut h)

theorem tail_scan_recut : (scan (Segment.sourceAll segments ++ (scan t).tail)).tail = (scan t).tail :=
  (congrArg Scan.tail (unplaced_scan_recut h)).trans rfl

theorem isClean_scan_recut :
    (scan (Segment.sourceAll segments ++ (scan t).tail)).isClean = (scan t).isClean := by
  have hclean := congrArg Scan.isClean (unplaced_scan_recut h)
  rw [Scan.isClean_unplaced] at hclean
  exact hclean.trans (Scan.isClean_unplaced (scan t))

end

/-! ## Revisions of segments without their places -/

namespace Segment

theorem splitElement_map_unplaced (depth : Nat) (segments : List Segment) :
    Scan.splitElement depth (segments.map unplaced) =
      (Scan.splitElement depth segments).map (Prod.map (List.map unplaced) (List.map unplaced)) := by
  induction segments generalizing depth with
  | nil => rfl
  | cons s rest ih =>
    have hkind : s.unplaced.token.kind = s.token.kind := rfl
    rw [List.map_cons]
    cases hcase : s.token.kind with
    | opening =>
      rw [Scan.splitElement_opening (hkind.trans hcase), Scan.splitElement_opening hcase, ih]
      simp [Option.map_map, Function.comp_def]
    | closing =>
      cases depth with
      | zero =>
        rw [Scan.splitElement_closing_zero (hkind.trans hcase),
          Scan.splitElement_closing_zero hcase]
        rfl
      | succ depth =>
        rw [Scan.splitElement_closing (hkind.trans hcase), Scan.splitElement_closing hcase, ih]
        simp [Option.map_map, Function.comp_def]
    | _ =>
      rw [Scan.splitElement_other (by simp [hkind, hcase]) (by simp [hkind, hcase]),
        Scan.splitElement_other (by simp [hcase]) (by simp [hcase]), ih]
      simp [Option.map_map, Function.comp_def]

theorem splitAfter_map_unplaced (token : Token) (rest : List Segment) :
    splitAfter { token with start := 0 } (rest.map unplaced) =
      (splitAfter token rest).map (Prod.map (List.map unplaced) (List.map unplaced)) := by
  unfold splitAfter
  split
  · exact splitElement_map_unplaced 0 rest
  · rfl

theorem revise_of_pass_none {σ : Type} {act : σ → Token → σ × Action} {memory memory' : σ}
    {s : Segment} {rest : List Segment} (h : act memory s.token = (memory', .pass))
    (hsplit : splitAfter s.token rest = none) :
    revise act memory (s :: rest) = s.source ++ sourceAll rest := by
  rw [revise, h]
  dsimp only
  split
  · next heq => cases hsplit.symm.trans heq
  · rfl

theorem revise_of_erase_none {σ : Type} {act : σ → Token → σ × Action} {memory memory' : σ}
    {s : Segment} {rest : List Segment} (h : act memory s.token = (memory', .erase))
    (hsplit : splitAfter s.token rest = none) :
    revise act memory (s :: rest) = s.source ++ sourceAll rest := by
  rw [revise, h]
  dsimp only
  split
  · next heq => cases hsplit.symm.trans heq
  · rfl

/-- A revision that does not ask where a token stands does the same to segments
without their places. -/
theorem revise_map_unplaced {σ : Type} {act : σ → Token → σ × Action}
    (hact : ∀ memory token, act memory { token with start := 0 } = act memory token) (memory : σ)
    (segments : List Segment) :
    revise act memory (segments.map unplaced) = revise act memory segments := by
  induction hlength : segments.length using Nat.strong_induction_on generalizing memory segments with
  | _ length ih =>
    subst hlength
    cases segments with
    | nil => rfl
    | cons s rest =>
      have hstep : act memory s.unplaced.token = act memory s.token := hact memory s.token
      have hsplit : splitAfter s.unplaced.token (rest.map unplaced) = _ :=
        splitAfter_map_unplaced s.token rest
      rw [List.map_cons]
      rcases hnext : act memory s.token with ⟨memory', action⟩
      rw [hnext] at hstep
      cases action with
      | keep =>
        rw [revise_of_keep hstep, revise_of_keep hnext, ih rest.length (Nat.lt_succ_self _) _ _ rfl]
        rfl
      | replace tag =>
        rw [revise_of_replace hstep, revise_of_replace hnext,
          ih rest.length (Nat.lt_succ_self _) _ _ rfl]
        rfl
      | pass =>
        cases hafter : splitAfter s.token rest with
        | none =>
          rw [hafter] at hsplit
          rw [revise_of_pass_none hstep hsplit, revise_of_pass_none hnext hafter,
            sourceAll_map_unplaced]
          rfl
        | some parts =>
          rw [hafter] at hsplit
          rw [revise_of_pass hstep hsplit, revise_of_pass hnext hafter, sourceAll_map_unplaced,
            ih parts.2.length (Nat.lt_succ_of_le (length_splitAfter hafter)) _ _ rfl]
          rfl
      | erase =>
        cases hafter : splitAfter s.token rest with
        | none =>
          rw [hafter] at hsplit
          rw [revise_of_erase_none hstep hsplit, revise_of_erase_none hnext hafter,
            sourceAll_map_unplaced]
          rfl
        | some parts =>
          rw [hafter] at hsplit
          rw [revise_of_erase hstep hsplit, revise_of_erase hnext hafter,
            ih parts.2.length (Nat.lt_succ_of_le (length_splitAfter hafter)) _ _ rfl]
          rfl

end Segment

/-- A revision that does not ask where a token stands revises the segments of a text. -/
theorem reviseText_of_unplaced {σ : Type} {act : σ → Token → σ × Action} {memory : σ} {t : Text}
    {segments : List Segment}
    (hact : ∀ memory token, act memory { token with start := 0 } = act memory token)
    (h : (scan t).segments.map Segment.unplaced = segments.map Segment.unplaced) :
    reviseText act memory t =
      ⟨Segment.revise act memory segments ++ (scan t).tail, (scan t).isClean⟩ := by
  rw [reviseText, ← Segment.revise_map_unplaced hact memory (scan t).segments, h,
    Segment.revise_map_unplaced hact]

end SkinMarkup
