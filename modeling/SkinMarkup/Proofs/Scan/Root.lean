import Mathlib.Data.List.Forall2
import SkinMarkup.Proofs.Scan.Recut

/-!
# The root of a scanned text

The first element token of a scan starts an element, the root (`Segment.exists_root`).
It is found again where tokens have got other texts (`splitAtRoot_recut`), so an edit
of the root gives the root's segment another text and leaves the other segments as
they are (`editRoot_recut`).
-/

namespace SkinMarkup

namespace Segment

variable {s : Segment} {segments : List Segment}

theorem recut_self {s : Segment} (h : s.token.IsCut) : Recut s s :=
  ⟨rfl, rfl, h⟩

theorem forall₂_recut_self (h : ∀ s ∈ segments, s.token.IsCut) :
    List.Forall₂ Recut segments segments :=
  List.forall₂_same.mpr fun s hs => recut_self (h s hs)

/-- The text of a segment's token changed. -/
def retag (s : Segment) (text : Text) : Segment :=
  ⟨s.gap, { s.token with text }⟩

theorem isStart_retag {text : Text} (h : s.token.isStart = true) :
    (s.retag text).token.isStart = true :=
  h

theorem recut_retag {text : Text} (h : Token.IsCut { s.token with text }) :
    Recut s (s.retag text) :=
  ⟨rfl, rfl, h⟩

/-! ## The first element token -/

theorem splitAtElement_append {before after : List Segment} {s : Segment}
    (hbefore : ∀ x ∈ before, x.token.isElement = false) (hs : s.token.isElement = true) :
    splitAtElement (before ++ s :: after) = some (sourceAll before ++ s.gap, s.token, after) := by
  induction before with
  | nil => simp [splitAtElement, hs, sourceAll]
  | cons x before ih =>
    have hx : ¬ x.token.isElement = true := by simp [hbefore x List.mem_cons_self]
    rw [List.cons_append, splitAtElement, if_neg hx,
      ih fun y hy => hbefore y (List.mem_cons_of_mem x hy)]
    simp [sourceAll]

/-- Where the first element token stands. -/
theorem exists_of_splitAtElement {before : Text} {token : Token} {after : List Segment}
    (h : splitAtElement segments = some (before, token, after)) :
    ∃ front s, segments = front ++ s :: after ∧ s.token = token ∧
      before = sourceAll front ++ s.gap := by
  induction segments generalizing before with
  | nil => cases h
  | cons x rest ih =>
    rw [splitAtElement] at h
    split at h
    · cases h
      exact ⟨[], x, rfl, rfl, rfl⟩
    · obtain ⟨⟨before', token', after'⟩, hsplit, heq⟩ := Option.map_eq_some_iff.mp h
      cases heq
      obtain ⟨front, s, rfl, rfl, rfl⟩ := ih hsplit
      exact ⟨x :: front, s, rfl, rfl, by simp [sourceAll]⟩

theorem splitAtElement_eq_none (h : ∀ x ∈ segments, x.token.isElement = false) :
    splitAtElement segments = none := by
  induction segments with
  | nil => rfl
  | cons x rest ih =>
    have hx : ¬ x.token.isElement = true := by simp [h x List.mem_cons_self]
    rw [splitAtElement, if_neg hx, ih fun y hy => h y (List.mem_cons_of_mem x hy)]
    rfl

theorem depthAfter_append {before after : List Segment}
    (hbefore : ∀ x ∈ before, x.token.isElement = false) (depth : Nat) :
    depthAfter depth (before ++ after) = depthAfter depth after := by
  induction before with
  | nil => rfl
  | cons x before ih =>
    have hkind : x.token.kind.depthAfter depth = some depth := by
      have hx := hbefore x List.mem_cons_self
      rw [Token.isElement] at hx
      cases hcase : x.token.kind <;> simp_all [TokenKind.isElement, TokenKind.isStart,
        TokenKind.depthAfter]
    rw [List.cons_append, depthAfter, hkind]
    exact ih fun y hy => hbefore y (List.mem_cons_of_mem x hy)

/-- Where nothing is open, the first element token starts an element. -/
theorem exists_root {final : Nat} (hdepth : depthAfter 0 segments = some final)
    (h : ∃ x ∈ segments, x.token.isElement = true) :
    ∃ before root after, segments = before ++ root :: after ∧
      (∀ x ∈ before, x.token.isElement = false) ∧ root.token.isStart = true := by
  obtain ⟨x, hx, helement⟩ := h
  obtain ⟨root, hroot⟩ : ∃ root, segments.find? (·.token.isElement) = some root :=
    Option.isSome_iff_exists.mp (List.find?_isSome.mpr ⟨x, hx, helement⟩)
  obtain ⟨hkind, before, after, rfl, hbefore⟩ := List.find?_eq_some_iff_append.mp hroot
  replace hbefore : ∀ x ∈ before, x.token.isElement = false := fun x hx => by
    simpa using hbefore x hx
  refine ⟨before, root, after, rfl, hbefore, ?_⟩
  -- An end tag would find nothing open.
  rw [depthAfter_append hbefore, depthAfter] at hdepth
  rw [Token.isElement, TokenKind.isElement, Bool.or_eq_true] at hkind
  rcases hkind with hstart | hclosing
  · exact hstart
  · rw [beq_iff_eq.mp hclosing] at hdepth
    cases hdepth

theorem exists_element_of_forall₂ {segments' : List Segment}
    (h : List.Forall₂ Recut segments segments')
    (hany : ∃ s ∈ segments, s.token.isElement = true) :
    ∃ s ∈ segments', s.token.isElement = true := by
  obtain ⟨s, hs, helement⟩ := hany
  induction h with
  | nil => cases hs
  | cons hx _ ih =>
    rcases List.mem_cons.mp hs with rfl | hs
    · refine ⟨_, List.mem_cons_self, ?_⟩
      rw [Token.isElement, hx.kind]
      exact helement
    · obtain ⟨s', hs', helement'⟩ := ih hs
      exact ⟨s', List.mem_cons_of_mem _ hs', helement'⟩

end Segment

/-- The segments of a text that is divided at its root. -/
theorem exists_of_splitAtRoot {t : Text} {split : RootSplit} (h : splitAtRoot t = some split) :
    split.root.isStart = true ∧ ∃ front s after, (scan t).segments = front ++ s :: after ∧
      s.token = split.root ∧ split.before = Segment.sourceAll front ++ s.gap ∧
      split.after = Segment.sourceAll after ++ (scan t).tail := by
  obtain ⟨⟨before, root, after⟩, hsplit, hroot⟩ := Option.bind_eq_some_iff.mp h
  dsimp only at hroot
  by_cases hstart : root.isStart = true
  · rw [if_pos hstart] at hroot
    obtain rfl := Option.some.inj hroot
    obtain ⟨front, s, hsegments, rfl, rfl⟩ := Segment.exists_of_splitAtElement hsplit
    exact ⟨hstart, front, s, after, hsegments, rfl, rfl, rfl⟩
  · rw [if_neg hstart] at hroot
    cases hroot

/-! ## The root as it is now -/

section

variable {t : Text} {before after : List Segment} {root : Segment}
  (h : List.Forall₂ Segment.Recut (scan t).segments (before ++ root :: after))
  (hbefore : ∀ x ∈ before, x.token.isElement = false) (hroot : root.token.isStart = true)

include h hbefore hroot

/-- The root of a scanned text, with its tag as it is now. -/
theorem splitAtRoot_recut :
    ∃ start, splitAtRoot (Segment.sourceAll (before ++ root :: after) ++ (scan t).tail) =
      some ⟨Segment.sourceAll before ++ root.gap, { root.token with start },
        Segment.sourceAll after ++ (scan t).tail⟩ := by
  have hsegments := segments_scan_recut h
  have htail := tail_scan_recut h
  generalize Segment.sourceAll (before ++ root :: after) ++ (scan t).tail = u at hsegments htail ⊢
  rw [List.map_append, List.map_cons] at hsegments
  obtain ⟨before', rest, hsplit, hbefore', hrest⟩ := List.map_eq_append_iff.mp hsegments
  obtain ⟨root', after', rfl, hroot', hafter'⟩ := List.map_eq_cons_iff.mp hrest
  have hinert : ∀ x ∈ before', x.token.isElement = false := by
    intro x hx
    have hmem : x.unplaced ∈ before.map Segment.unplaced := by
      rw [← hbefore']
      exact List.mem_map_of_mem hx
    obtain ⟨y, hy, heq⟩ := List.mem_map.mp hmem
    have hkind : x.token.kind = y.token.kind := congrArg (·.token.kind) heq.symm
    rw [Token.isElement, hkind]
    exact hbefore y hy
  have htoken : root'.token = ⟨root.token.kind, root'.token.start, root.token.text⟩ := by
    have hkind : root'.token.kind = root.token.kind := congrArg (·.token.kind) hroot'
    have htext : root'.token.text = root.token.text := congrArg (·.token.text) hroot'
    rw [← hkind, ← htext]
  have hgap : root'.gap = root.gap := congrArg (·.gap) hroot'
  have hstart : root'.token.isStart = true := by
    rw [htoken]
    exact hroot
  refine ⟨root'.token.start, ?_⟩
  have helement : root'.token.isElement = true := by
    by_contra hinertRoot
    rw [Token.isStart_eq_false (Bool.eq_false_iff.mpr hinertRoot)] at hstart
    cases hstart
  simp only [splitAtRoot, hsplit, Segment.splitAtElement_append hinert helement, bind,
    Option.bind, hstart, if_true, pure]
  rw [← Segment.sourceAll_map_unplaced before', hbefore', Segment.sourceAll_map_unplaced, hgap,
    ← Segment.sourceAll_map_unplaced after', hafter', Segment.sourceAll_map_unplaced, htail,
    ← htoken]

/-- **An edit of the root gives the root's segment another text.** -/
theorem editRoot_recut (edit : Token → Option Text)
    (hedit : ∀ start, edit { root.token with start } = edit root.token) :
    editRoot edit (Segment.sourceAll (before ++ root :: after) ++ (scan t).tail) =
      (edit root.token).map fun tag =>
        Segment.sourceAll (before ++ root.retag tag :: after) ++ (scan t).tail := by
  obtain ⟨start, hsplit⟩ := splitAtRoot_recut h hbefore hroot
  simp only [editRoot, hsplit, bind, Option.bind, hedit start]
  cases edit root.token with
  | none => rfl
  | some tag =>
    rw [Option.map_some, Segment.sourceAll_append, Segment.sourceAll_cons]
    simp [Segment.retag]

end

end SkinMarkup
