import SkinMarkup.Proofs.Indent.Unindented
import SkinMarkup.Proofs.Indent.Whole

/-!
# What indenting a range leaves alone

A range is entered at the first token that does not end before it, and left at the first
token that does not end before its end (`Segment.FirstAt`). Both tokens are indented if
the range reaches into them, and the gap in front of each of them is indented as a whole
if the range reaches into it (`exists_entry`, `exists_exit`).

So a gap at either end of the range is also indented outside the range. The lines of the
text in front of the range stay as they are exactly if indenting would not change them,
and the text behind the range stays as it is if the range does not end in a gap of several
lines. **If it does, the line behind it loses its indentation** (`kept_of_indentRange`,
`not_kept_of_gap`).
-/

namespace SkinMarkup

/-! ## Offsets and lines -/

/-- An offset where two characters of a text meet. -/
def AtBoundary (offset : Nat) (t : Text) : Prop :=
  width (takeWidth offset t) = offset

instance (offset : Nat) (t : Text) : Decidable (AtBoundary offset t) :=
  inferInstanceAs (Decidable (_ = _))

/-- The start of the line that an offset stands in. -/
def lineStart (offset : Nat) (t : Text) : Nat :=
  width (upToLine (takeWidth offset t))

/-- Whether an offset stands in the middle of a token. -/
def Token.straddles (token : Token) (offset : Nat) : Bool :=
  decide (token.start < offset) && decide (offset < token.stop)

/-- The start of the line that a range starts in, or of the token that it starts in the
middle of, if that comes first. -/
def keptUntil (start : Nat) (t : Text) : Nat :=
  match (scan t).tokens.find? (·.straddles start) with
  | some token => min (lineStart start t) token.start
  | none => lineStart start t

/-- The end of a range, or of the token that it ends in the middle of. -/
def keptFrom (stop : Nat) (t : Text) : Nat :=
  match (scan t).tokens.find? (·.straddles stop) with
  | some token => token.stop
  | none => stop

section Widths

variable {a b s t : Text}

theorem takeWidth_append_of_le {n : Nat} (h : n ≤ width s) (t : Text) :
    takeWidth n (s ++ t) <+: s := by
  induction s generalizing n with
  | nil =>
    obtain rfl : n = 0 := Nat.le_zero.mp h
    cases t <;> exact List.nil_prefix
  | cons c cs ih =>
    cases n with
    | zero => exact List.nil_prefix
    | succ n =>
      rw [width_cons] at h
      exact List.cons_prefix_cons.mpr ⟨rfl, ih (by omega)⟩

theorem dropWidth_append_of_le {n : Nat} (h : width s ≤ n) (t : Text) :
    dropWidth n (s ++ t) = dropWidth (n - width s) t := by
  induction s generalizing n with
  | nil => rfl
  | cons c cs ih =>
    have hpos := Char.utf8Size_pos c
    rw [width_cons] at h
    obtain ⟨n, rfl⟩ : ∃ m, n = m + 1 := ⟨n - 1, by omega⟩
    rw [List.cons_append, dropWidth, ih (by omega), width_cons, Nat.sub_sub]

theorem dropWidth_suffix (n : Nat) (t : Text) : dropWidth n t <:+ t :=
  ⟨takeWidth n t, takeWidth_append_dropWidth n t⟩

/-- Of two parts at the start of a text the narrower one is a part of the other. -/
theorem prefix_of_width_le (ha : a <+: t) (hb : b <+: t) (h : width a ≤ width b) : a <+: b := by
  rcases List.prefix_or_prefix_of_prefix ha hb with hab | ⟨m, rfl⟩
  · exact hab
  · rw [width_append] at h
    have hm : m = [] := eq_nil_of_width_eq_zero (by omega)
    rw [hm, List.append_nil]

/-- Parts at the start of a text that are equally wide are the same. -/
theorem eq_of_width_eq (ha : a <+: t) (hb : b <+: t) (h : width a = width b) : a = b := by
  obtain ⟨m, rfl⟩ := prefix_of_width_le ha hb h.le
  rw [width_append] at h
  rw [eq_nil_of_width_eq_zero (t := m) (by omega), List.append_nil]

theorem takeWidth_of_prefix (h : a <+: t) : takeWidth (width a) t = a := by
  obtain ⟨r, rfl⟩ := h
  exact takeWidth_width_append a r

end Widths

/-! ## The first token that does not end before an offset -/

namespace Segment

variable {offset : Nat} {segments before after : List Segment} {s : Segment} {t : Text}

/-- The first segment whose token does not end before an offset, and those around it. -/
structure FirstAt (offset : Nat) (segments before : List Segment) (s : Segment)
    (after : List Segment) : Prop where
  split : segments = before ++ s :: after
  before : ∀ b ∈ before, b.token.stop < offset
  reaches : offset ≤ s.token.stop

theorem exists_firstAt (offset : Nat) (segments : List Segment) :
    (∀ s ∈ segments, s.token.stop < offset) ∨
      ∃ before s after, FirstAt offset segments before s after := by
  induction segments with
  | nil => exact Or.inl fun s hs => absurd hs List.not_mem_nil
  | cons s rest ih =>
    by_cases hs : s.token.stop < offset
    · rcases ih with hall | ⟨before, s', after, hfirst⟩
      · exact Or.inl (List.forall_mem_cons.mpr ⟨hs, hall⟩)
      · refine Or.inr ⟨s :: before, s', after, by rw [hfirst.split]; rfl, ?_, hfirst.reaches⟩
        exact List.forall_mem_cons.mpr ⟨hs, hfirst.before⟩
    · refine Or.inr ⟨[], s, rest, rfl, ?_, Nat.not_lt.mp hs⟩
      exact fun b hb => absurd hb List.not_mem_nil

theorem FirstAt.unique {before' after' : List Segment} {s' : Segment}
    (h : FirstAt offset segments before s after) (h' : FirstAt offset segments before' s' after') :
    before = before' ∧ s = s' := by
  obtain ⟨hsplit, hbefore, hreaches⟩ := h
  obtain ⟨hsplit', hbefore', hreaches'⟩ := h'
  rw [hsplit] at hsplit'
  rcases List.append_eq_append_iff.mp hsplit' with ⟨m, rfl, hm⟩ | ⟨m, rfl, hm⟩
  · cases m with
    | nil => exact ⟨(List.append_nil before).symm, (List.cons.inj hm).1⟩
    | cons b m =>
      obtain ⟨rfl, -⟩ := List.cons.inj hm
      have hb := hbefore' s (List.mem_append_right _ List.mem_cons_self)
      omega
  · cases m with
    | nil => exact ⟨List.append_nil before', (List.cons.inj hm).1.symm⟩
    | cons b m =>
      obtain ⟨rfl, -⟩ := List.cons.inj hm
      have hb := hbefore s' (List.mem_append_right _ List.mem_cons_self)
      omega

/-- No other token has the offset in its middle. -/
theorem FirstAt.find?_straddles (h : FirstAt offset (scan t).segments before s after) :
    (scan t).tokens.find? (·.straddles offset) =
      if s.token.straddles offset then some s.token else none := by
  have hpairwise := (tiles_scan t).pairwise
  rw [h.split, List.pairwise_append, List.pairwise_cons] at hpairwise
  have hbefore : (before.map (·.token)).find? (·.straddles offset) = none := by
    rw [List.find?_eq_none]
    intro token htoken
    obtain ⟨b, hb, rfl⟩ := List.mem_map.mp htoken
    have hstop := h.before b hb
    rw [Token.straddles, Bool.and_eq_true, decide_eq_true_eq, decide_eq_true_eq]
    omega
  have hafter : (after.map (·.token)).find? (·.straddles offset) = none := by
    rw [List.find?_eq_none]
    intro token htoken
    obtain ⟨a, ha, rfl⟩ := List.mem_map.mp htoken
    have hstart := hpairwise.2.1.1 a ha
    have hreaches := h.reaches
    rw [Token.straddles, Bool.and_eq_true, decide_eq_true_eq, decide_eq_true_eq]
    omega
  rw [Scan.tokens, h.split, List.map_append, List.map_cons, List.find?_append, hbefore,
    Option.none_or, List.find?_cons, hafter]
  cases s.token.straddles offset <;> rfl

theorem find?_straddles_of_lt (h : ∀ s ∈ (scan t).segments, s.token.stop < offset) :
    (scan t).tokens.find? (·.straddles offset) = none := by
  rw [List.find?_eq_none]
  intro token htoken
  obtain ⟨s, hs, rfl⟩ := List.mem_map.mp htoken
  have hstop := h s hs
  rw [Token.straddles, Bool.and_eq_true, decide_eq_true_eq, decide_eq_true_eq]
  omega

/-- Tokens that end before an offset make up a part of the text before it. -/
theorem width_sourceAll_le {start : Nat} (hplaces : Consecutive start segments)
    (hstart : start ≤ offset) (h : ∀ s ∈ segments, s.token.stop < offset) :
    start + width (sourceAll segments) ≤ offset := by
  induction segments generalizing start with
  | nil => exact hstart
  | cons s rest ih =>
    obtain ⟨hstop, hrest⟩ := List.forall_mem_cons.mp h
    obtain ⟨hplace, hplaces⟩ := hplaces
    have hothers := ih hplaces hstop.le hrest
    rw [Token.stop] at hothers
    rw [sourceAll_cons, width_append, width_append]
    omega

theorem Consecutive.left {start : Nat} (h : Consecutive start (before ++ after)) :
    Consecutive start before := by
  induction before generalizing start with
  | nil => trivial
  | cons b before ih => exact ⟨h.1, ih h.2⟩

/-- An offset in front of the first token that does not end before it divides the gap of
that token. -/
theorem FirstAt.exists_gap_eq (hoffset : AtBoundary offset t)
    (h : FirstAt offset (scan t).segments before s after) (hle : offset ≤ s.token.start) :
    ∃ x y, s.gap = x ++ y ∧ takeWidth offset t = sourceAll before ++ x := by
  obtain ⟨hsource, hstart⟩ := Scan.source_of_split h.split
  have hplaces := (tiles_scan t).consecutive
  rw [h.split] at hplaces
  have hbefore := width_sourceAll_le hplaces.left (Nat.zero_le offset) h.before
  rw [Nat.zero_add] at hbefore
  have htake : takeWidth offset t <+: t := ⟨_, takeWidth_append_dropWidth offset t⟩
  have hgap : sourceAll before ++ s.gap <+: t := ⟨_, hsource.symm⟩
  have hupto : takeWidth offset t <+: sourceAll before ++ s.gap :=
    prefix_of_width_le htake hgap (by rw [hoffset, ← hstart]; exact hle)
  obtain ⟨x, hx⟩ : sourceAll before <+: takeWidth offset t :=
    prefix_of_width_le ((List.prefix_append _ _).trans hgap) htake (by rw [hoffset]; exact hbefore)
  rw [← hx] at hupto
  obtain ⟨y, hy⟩ := (List.prefix_append_right_inj _).mp hupto
  exact ⟨x, y, hy.symm, hx.symm⟩

end Segment

/-! ## The ends of a run -/

section

open Segment

variable {style : IndentStyle} {t : Text} {start stop : Nat} {before after : List Segment}
  {s : Segment}

namespace IndentTask

variable (task : IndentTask) (scanned : Scan) (rest : List Segment)

/-- Tokens that end before the range are copied with their gaps. -/
theorem exists_run_append_before (hle : task.start ≤ task.stop)
    (h : ∀ b ∈ before, b.token.stop < task.start) (opened : List Nat) :
    ∃ opened', (task.run scanned (.before opened) (before ++ rest)).text =
      sourceAll before ++ (task.run scanned (.before opened') rest).text := by
  induction before generalizing opened with
  | nil => exact ⟨opened, rfl⟩
  | cons b before ih =>
    obtain ⟨hb, hbefore⟩ := List.forall_mem_cons.mp h
    have hplace : b.token.start ≤ b.token.stop := by rw [Token.stop]; omega
    obtain ⟨next, hnext⟩ : ∃ next, IndentPhase.note b.token (.before opened) = .before next := by
      rw [IndentPhase.note]
      split <;> exact ⟨_, rfl⟩
    have hgap : task.gapText (.before opened) b = b.gap := by rw [gapText, if_neg (by omega)]
    have hstep : task.tokenStep (.before opened) b = (b.token.text, .before next) := by
      rw [tokenStep, if_neg (by omega), hnext]
    obtain ⟨opened', hrun⟩ := ih hbefore next
    refine ⟨opened', ?_⟩
    rw [List.cons_append, run_cons, if_neg (by omega), if_neg (by omega), hstep, hgap]
    dsimp only
    rw [hrun, sourceAll_cons]
    simp only [List.append_assoc]

/-- What is written for tokens that end before the end of the range has no part in what is
written behind them. -/
theorem exists_run_append_within (h : ∀ b ∈ before, b.token.stop < task.stop)
    (phase : IndentPhase) :
    ∃ written phase', (task.run scanned phase (before ++ rest)).text =
      written ++ (task.run scanned phase' rest).text := by
  induction before generalizing phase with
  | nil => exact ⟨[], phase, rfl⟩
  | cons b before ih =>
    obtain ⟨hb, hbefore⟩ := List.forall_mem_cons.mp h
    have hplace : b.token.start ≤ b.token.stop := by rw [Token.stop]; omega
    obtain ⟨written, phase', hrun⟩ := ih hbefore (task.tokenStep phase b).2
    refine ⟨task.gapText phase b ++ (task.tokenStep phase b).1 ++ written, phase', ?_⟩
    rw [List.cons_append, run_cons, if_neg (by omega), if_neg (by omega), hrun]
    simp only [List.append_assoc]

end IndentTask

/-- **How a range is entered**: in front of the first token that does not end before it all
is copied. The gap of that token is indented if the range starts in it, and copied if the
range starts in the token. -/
theorem exists_entry (style : IndentStyle) (h : start ≤ stop)
    (hfirst : FirstAt start (scan t).segments before s after) :
    ∃ more, (indentRange style start stop t).text = sourceAll before ++
      ((if s.token.start < start then s.gap else style.reindent 0 true true s.gap) ++ more) := by
  let task : IndentTask := ⟨style, t, start, stop⟩
  obtain ⟨opened, hrun⟩ :=
    IndentTask.exists_run_append_before task (scan t) (s :: after) h hfirst.before []
  have hgap : task.gapText (.before opened) s =
      if s.token.start < start then s.gap else style.reindent 0 true true s.gap := by
    rw [IndentTask.gapText]
    by_cases hstart : s.token.start < start
    · rw [if_pos hstart, if_neg (Nat.not_le.mpr hstart)]
    · rw [if_neg hstart, if_pos (Nat.not_lt.mp hstart)]
      rfl
  rw [← hfirst.split] at hrun
  rw [← hgap]
  show ∃ more, (task.run (scan t) (.before []) (scan t).segments).text = _
  rw [hrun, IndentTask.run_cons]
  split
  · exact ⟨_, by rw [List.append_assoc]⟩
  · split
    · exact ⟨_, by rw [List.append_assoc]⟩
    · exact ⟨_, by rw [List.append_assoc]⟩

theorem indentRange_of_lt (h : start ≤ stop) (hall : ∀ s ∈ (scan t).segments, s.token.stop < start) :
    (indentRange style start stop t).text = t := by
  let task : IndentTask := ⟨style, t, start, stop⟩
  obtain ⟨opened, hrun⟩ := IndentTask.exists_run_append_before task (scan t) [] h hall []
  rw [List.append_nil] at hrun
  exact hrun.trans (tiles_scan t).source

/-- **How a range is left**: behind the first token that does not end before its end all is
copied. That token is copied with its gap indented if the range ends in the gap. -/
theorem exists_exit (style : IndentStyle) (h : start ≤ stop)
    (hfirst : FirstAt stop (scan t).segments before s after) :
    ∃ written level, (indentRange style start stop t).text = written ++
      ((if s.token.start < stop then [] else style.reindent level true true s.gap ++ s.token.text) ++
        (sourceAll after ++ (scan t).tail)) := by
  let task : IndentTask := ⟨style, t, start, stop⟩
  obtain ⟨written, phase, hrun⟩ :=
    IndentTask.exists_run_append_within task (scan t) (s :: after) hfirst.before (.before [])
  rw [← hfirst.split] at hrun
  show ∃ written level, (task.run (scan t) (.before []) (scan t).segments).text = _
  rw [hrun, IndentTask.run_cons]
  by_cases hstart : s.token.start < stop
  · rw [if_neg (Nat.not_le.mpr hstart), if_pos hfirst.reaches]
    refine ⟨written ++ (task.gapText phase s ++ (task.tokenStep phase s).1), 0, ?_⟩
    rw [if_pos hstart]
    simp only [List.append_assoc, List.nil_append]
  · have hgap : task.gapText phase s = style.reindent phase.gapLevel true true s.gap :=
      if_pos (h.trans (Nat.not_lt.mp hstart))
    rw [if_pos (Nat.not_lt.mp hstart), hgap]
    refine ⟨written, phase.gapLevel, ?_⟩
    rw [if_neg hstart]

theorem exists_exit_of_lt (style : IndentStyle) (start : Nat)
    (hall : ∀ s ∈ (scan t).segments, s.token.stop < stop) :
    ∃ written, (indentRange style start stop t).text = written ++ (scan t).tail := by
  let task : IndentTask := ⟨style, t, start, stop⟩
  obtain ⟨written, phase, hrun⟩ := IndentTask.exists_run_append_within task (scan t) [] hall (.before [])
  rw [List.append_nil] at hrun
  exact ⟨written, hrun⟩

/-! ## Text outside the range -/

/-- An offset that stands in a gap, with what stands in front of it and behind it there. No
token ends at the offset. -/
def StandsInGap (offset : Nat) (t : Text) (s : Segment) (x y : Text) : Prop :=
  ∃ before after, FirstAt offset (scan t).segments before s after ∧ s.gap = x ++ y ∧
    offset = width (sourceAll before ++ x)

theorem StandsInGap.eq {offset : Nat} {x y : Text} {s' : Segment}
    (h : StandsInGap offset t s' x y) (hfirst : FirstAt offset (scan t).segments before s after) :
    s' = s ∧ offset = width (sourceAll before ++ x) ∧ offset ≤ s.token.start := by
  obtain ⟨before', after', hfirst', hgap, hoffset⟩ := h
  obtain ⟨rfl, rfl⟩ := hfirst'.unique hfirst
  refine ⟨rfl, hoffset, ?_⟩
  rw [hoffset, (Scan.source_of_split hfirst'.split).2, hgap]
  simp only [width_append]
  omega

/-- An offset stands in one gap only. -/
theorem StandsInGap.unique {offset : Nat} {x y x' y' : Text} {s' : Segment}
    (h : StandsInGap offset t s x y) (h' : StandsInGap offset t s' x' y') : x' = x := by
  obtain ⟨before, after, hfirst, hgap, hwidth⟩ := h
  obtain ⟨rfl, hwidth', -⟩ := h'.eq hfirst
  obtain ⟨-, -, -, hgap', -⟩ := h'
  have hpart : x' <+: x ++ y := ⟨y', by rw [← hgap', hgap]⟩
  apply eq_of_width_eq hpart (List.prefix_append x y)
  rw [hwidth, width_append, width_append] at hwidth'
  omega

/-- In front of a range that starts in a gap the lines before that of the range are kept. -/
theorem takeWidth_keptUntil {x : Text} (hfirst : FirstAt start (scan t).segments before s after)
    (hs : start ≤ s.token.start) (htake : takeWidth start t = sourceAll before ++ x) :
    takeWidth (keptUntil start t) t = upToLine (sourceAll before ++ x) := by
  have hmiddle : s.token.straddles start = false := by
    simp [Token.straddles, Nat.not_lt.mpr hs]
  have hkept : keptUntil start t = lineStart start t := by
    rw [keptUntil, hfirst.find?_straddles, hmiddle]
    rfl
  have hupto : sourceAll before ++ x <+: t :=
    ⟨_, by rw [← htake]; exact takeWidth_append_dropWidth start t⟩
  rw [hkept, lineStart, htake]
  exact takeWidth_of_prefix ((prefix_upToLine _).trans hupto)

/-- A range that starts in a token, or directly behind one that is on one line, leaves the
text in front of that token alone. -/
theorem keptUntil_le (hfirst : FirstAt start (scan t).segments before s after)
    (hs : s.token.start < start) (hend : s.token.stop = start → OneLine s.token.text) :
    keptUntil start t ≤ s.token.start := by
  rw [keptUntil, hfirst.find?_straddles]
  cases hmiddle : s.token.straddles start with
  | true => exact min_le_right _ _
  | false =>
    have hstop : s.token.stop = start := by
      have hreaches := hfirst.reaches
      rw [Token.straddles, Bool.and_eq_false_iff, decide_eq_false_iff_not,
        decide_eq_false_iff_not] at hmiddle
      omega
    obtain ⟨hsource, hstart⟩ := Scan.source_of_split hfirst.split
    have htake : takeWidth start t = sourceAll before ++ s.gap ++ s.token.text := by
      have hwidth : start = width (sourceAll before ++ s.gap ++ s.token.text) := by
        rw [← hstop, Token.stop, hstart, ← width_append]
      rw [hwidth]
      apply takeWidth_of_prefix
      rw [← List.append_assoc] at hsource
      exact ⟨_, hsource.symm⟩
    obtain ⟨r, hr⟩ := prefix_upToLine (sourceAll before ++ s.gap)
    show lineStart start t ≤ s.token.start
    rw [lineStart, htake, upToLine_append_oneLine _ (hend hstop), hstart]
    conv_rhs => rw [← hr]
    rw [width_append]
    omega

/-- **Lines in front of a range stay as they are exactly if the gap that the range starts in
is not indented there.** -/
theorem prefix_keptUntil_iff (h : start ≤ stop) (hstart : AtBoundary start t)
    (hends : ∀ token ∈ (scan t).tokens, token.stop = start → OneLine token.text) :
    takeWidth (keptUntil start t) t <+: (indentRange style start stop t).text ↔
      ∀ s x y, StandsInGap start t s x y → Unindented (upToLine x) := by
  rcases exists_firstAt start (scan t).segments with hall | ⟨before, s, after, hfirst⟩
  · rw [indentRange_of_lt h hall]
    constructor
    · rintro - s x y ⟨before, after, hfirst, -⟩
      have hreaches := hfirst.reaches
      have hlt := hall s (by rw [hfirst.split]; exact List.mem_append_right _ List.mem_cons_self)
      omega
    · exact fun _ => ⟨_, takeWidth_append_dropWidth _ t⟩
  · obtain ⟨hsource, hplace⟩ := Scan.source_of_split hfirst.split
    obtain ⟨more, hout⟩ := exists_entry style h hfirst
    by_cases hs : s.token.start < start
    · constructor
      · intro _ s' x y hstands
        have hle := (hstands.eq hfirst).2.2
        omega
      · intro _
        have hmem : s.token ∈ (scan t).tokens := by
          rw [Scan.tokens, hfirst.split]
          exact List.mem_map_of_mem (List.mem_append_right _ List.mem_cons_self)
        have hkept := keptUntil_le hfirst hs (hends s.token hmem)
        rw [hplace] at hkept
        have hprefix := takeWidth_append_of_le hkept
          (s.token.text ++ (sourceAll after ++ (scan t).tail))
        rw [← hsource] at hprefix
        rw [hout, if_pos hs, ← List.append_assoc]
        exact hprefix.trans (List.prefix_append _ _)
    · obtain ⟨x, y, hgap, htake⟩ := hfirst.exists_gap_eq hstart (Nat.not_lt.mp hs)
      have hself : StandsInGap start t s x y :=
        ⟨before, after, hfirst, hgap, by rw [← htake, hstart]⟩
      have hstands : (∀ s x y, StandsInGap start t s x y → Unindented (upToLine x)) ↔
          Unindented (upToLine x) :=
        ⟨fun hall => hall s x y hself, fun hx s' x' y' hstands => by rwa [hself.unique hstands]⟩
      have hline := takeWidth_keptUntil hfirst (Nat.not_lt.mp hs) htake
      rw [hstands, hline, hout, if_neg hs, hgap, upToLine_append]
      split
      · next hone =>
        rw [upToLine_of_oneLine hone]
        constructor
        · exact fun _ => Unindented.nil
        · exact fun _ => (prefix_upToLine _).trans (List.prefix_append _ _)
      · next hone =>
        obtain ⟨l, c, r, rfl, hc, hr⟩ := (oneLine_or_exists_break x).resolve_left hone
        rw [upToLine_append_oneLine _ hr, upToLine_append_break l hc,
          List.prefix_append_right_inj, List.append_assoc (l ++ [c]) r y]
        exact IndentStyle.prefix_reindent_iff hc (r ++ y) more

/-- The text from the end of a range on that ends in a gap. -/
theorem StandsInGap.dropWidth_keptFrom {x y : Text} (hstands : StandsInGap stop t s x y)
    (hfirst : FirstAt stop (scan t).segments before s after) :
    dropWidth (keptFrom stop t) t =
      y ++ (s.token.text ++ (sourceAll after ++ (scan t).tail)) := by
  obtain ⟨-, hwidth, hle⟩ := hstands.eq hfirst
  obtain ⟨-, -, -, hgap, -⟩ := hstands
  have hkept : keptFrom stop t = stop := by
    have hmiddle : s.token.straddles stop = false := by
      simp [Token.straddles, Nat.not_lt.mpr hle]
    rw [keptFrom, hfirst.find?_straddles, hmiddle]
    rfl
  have hsource := (Scan.source_of_split hfirst.split).1
  have hsplit : t = (sourceAll before ++ x) ++
      (y ++ (s.token.text ++ (sourceAll after ++ (scan t).tail))) := by
    rw [hgap] at hsource
    simpa using hsource
  rw [hkept, hwidth]
  conv_lhs => rw [hsplit]
  exact dropWidth_width_append _ _

/-- **Text behind a range that does not end in a gap of several lines stays as it is.** -/
theorem suffix_keptFrom (h : start ≤ stop) (hstop : AtBoundary stop t)
    (hgap : ∀ s x y, StandsInGap stop t s x y → y = [] ∨ OneLine s.gap) :
    dropWidth (keptFrom stop t) t <:+ (indentRange style start stop t).text := by
  rcases exists_firstAt stop (scan t).segments with hall | ⟨before, s, after, hfirst⟩
  · obtain ⟨written, hout⟩ := exists_exit_of_lt style start hall
    have htiles := tiles_scan t
    have hwidth := width_sourceAll_le htiles.consecutive (Nat.zero_le stop) hall
    rw [Nat.zero_add] at hwidth
    have hdrop := dropWidth_append_of_le hwidth (scan t).tail
    rw [htiles.source] at hdrop
    have hkept : keptFrom stop t = stop := by
      rw [keptFrom, find?_straddles_of_lt hall]
    rw [hkept, hdrop, hout]
    exact (dropWidth_suffix _ _).trans (List.suffix_append _ _)
  · obtain ⟨hsource, hplace⟩ := Scan.source_of_split hfirst.split
    obtain ⟨written, level, hout⟩ := exists_exit style h hfirst
    by_cases hs : s.token.start < stop
    · have hkept : keptFrom stop t = s.token.stop := by
        have hreaches := hfirst.reaches
        rw [keptFrom, hfirst.find?_straddles]
        cases hmiddle : s.token.straddles stop with
        | true => rfl
        | false =>
          rw [Token.straddles, Bool.and_eq_false_iff, decide_eq_false_iff_not,
            decide_eq_false_iff_not] at hmiddle
          show stop = s.token.stop
          omega
      have hdrop : dropWidth s.token.stop t = sourceAll after ++ (scan t).tail := by
        rw [Token.stop, hplace, ← width_append]
        conv_lhs => rw [hsource, ← List.append_assoc]
        exact dropWidth_width_append _ _
      rw [hkept, hdrop, hout, if_pos hs, List.nil_append]
      exact List.suffix_append _ _
    · obtain ⟨x, y, hsplit, htake⟩ := hfirst.exists_gap_eq hstop (Nat.not_lt.mp hs)
      have hstands : StandsInGap stop t s x y :=
        ⟨before, after, hfirst, hsplit, by rw [← htake, hstop]⟩
      have hy : y <:+ style.reindent level true true s.gap := by
        rcases hgap s x y hstands with rfl | hone
        · exact List.nil_suffix
        · rw [IndentStyle.reindent_of_oneLine hone, hsplit]
          exact List.suffix_append x y
      obtain ⟨u, hu⟩ := hy
      rw [hstands.dropWidth_keptFrom hfirst, hout, if_neg hs, ← hu]
      exact ⟨written ++ u, by simp⟩

/-- **A range that ends in a gap of several lines changes the text behind it**, if blanks
follow up to the token. -/
theorem not_suffix_keptFrom (h : start ≤ stop) {x y : Text} {c : Char}
    (hstands : StandsInGap stop t s x (y ++ [c])) (hlines : ¬ OneLine s.gap)
    (hc : isBlank c = true) (hne : c ≠ '\n') :
    ¬ dropWidth (keptFrom stop t) t <:+ (indentRange style start stop t).text := by
  intro hsuffix
  have hstands' := hstands
  obtain ⟨before, after, hfirst, -, -⟩ := hstands'
  obtain ⟨-, -, hle⟩ := hstands.eq hfirst
  obtain ⟨written, level, hout⟩ := exists_exit style h hfirst
  obtain ⟨u, d, hu, hd⟩ := IndentStyle.last_reindent style hlines level
  rw [hstands.dropWidth_keptFrom hfirst, hout, if_neg (Nat.not_lt.mpr hle), hu] at hsuffix
  obtain ⟨w, hw⟩ := hsuffix
  simp only [← List.append_assoc] at hw
  have hlast := List.append_inj_right' (List.append_cancel_right (List.append_cancel_right
    (List.append_cancel_right hw))) rfl
  rw [List.singleton_inj] at hlast
  exact hne (hlast.trans (hd (hlast ▸ hc)))

/-- **What indenting a range leaves alone.** In front of the range, and of the token that it
starts in, the text stays as it is exactly if the gap in which the range starts is not
indented up to the line of the range; a token that ends where the range starts is in the
range. Behind the range, and the token that it ends in, the text stays as it is unless the
range ends in a gap of several lines, and does not if blanks follow up to the token. -/
theorem kept_of_indentRange (style : IndentStyle) (h : start ≤ stop) (hstart : AtBoundary start t)
    (hstop : AtBoundary stop t) :
    ((∀ token ∈ (scan t).tokens, token.stop = start → OneLine token.text) →
      (takeWidth (keptUntil start t) t <+: (indentRange style start stop t).text ↔
        ∀ s x y, StandsInGap start t s x y → Unindented (upToLine x))) ∧
    ((∀ s x y, StandsInGap stop t s x y → y = [] ∨ OneLine s.gap) →
      dropWidth (keptFrom stop t) t <:+ (indentRange style start stop t).text) ∧
    (∀ s x y c, StandsInGap stop t s x (y ++ [c]) → ¬ OneLine s.gap → isBlank c = true →
      c ≠ '\n' → ¬ dropWidth (keptFrom stop t) t <:+ (indentRange style start stop t).text) := by
  refine ⟨prefix_keptUntil_iff h hstart, suffix_keptFrom h hstop, ?_⟩
  exact fun s x y c hstands => not_suffix_keptFrom h hstands

/-- A list of two elements, of which the first line is indented. The first one is a range of
its own, and with the break behind it the range ends in a gap. -/
theorem kept_of_list :
    let t := "<a>\n\t<b/>\n\t<c/>\n</a>".toList
    AtBoundary 4 t ∧ AtBoundary 9 t ∧ AtBoundary 10 t ∧
      takeWidth (keptUntil 4 t) t <+: (indentRange .standard 4 9 t).text ∧
      dropWidth (keptFrom 9 t) t <:+ (indentRange .standard 4 9 t).text ∧
      ¬ dropWidth (keptFrom 10 t) t <:+ (indentRange .standard 4 10 t).text := by
  intro t
  let a : Segment := ⟨[], ⟨.opening, 0, "<a>".toList⟩⟩
  let b : Segment := ⟨['\n', '\t'], ⟨.selfClosing, 5, "<b/>".toList⟩⟩
  let c : Segment := ⟨['\n', '\t'], ⟨.selfClosing, 11, "<c/>".toList⟩⟩
  let e : Segment := ⟨['\n'], ⟨.closing, 16, "</a>".toList⟩⟩
  have hscan : (scan t).segments = [a, b, c, e] := by decide +kernel
  have hentry : FirstAt 4 (scan t).segments [a] b [c, e] := ⟨hscan, by decide, by decide⟩
  have hexit : FirstAt 9 (scan t).segments [a] b [c, e] := ⟨hscan, by decide, by decide⟩
  have hgap : FirstAt 10 (scan t).segments [a, b] c [e] := ⟨hscan, by decide, by decide⟩
  have h4 : AtBoundary 4 t := by decide
  have h9 : AtBoundary 9 t := by decide
  have h10 : AtBoundary 10 t := by decide
  have h49 : 4 ≤ 9 := by decide
  have h410 : 4 ≤ 10 := by decide
  obtain ⟨hbefore, hbehind, -⟩ := kept_of_indentRange .standard h49 h4 h9
  obtain ⟨-, -, hlost⟩ := kept_of_indentRange .standard h410 h4 h10
  refine ⟨h4, h9, h10, (hbefore (by decide +kernel)).mpr ?_, hbehind ?_, ?_⟩
  · intro s x y hstands
    obtain ⟨rfl, hwidth, -⟩ := hstands.eq hentry
    obtain ⟨-, -, -, hsplit, -⟩ := hstands
    have hx : x = ['\n'] := by
      apply eq_of_width_eq ⟨y, hsplit.symm⟩ ⟨['\t'], rfl⟩
      rw [width_append] at hwidth
      exact Nat.add_left_cancel (n := 3) hwidth.symm
    rw [hx]
    exact Unindented.feed
  · intro s x y hstands
    exact absurd (hstands.eq hexit).2.2 (by decide)
  · exact hlost c ['\n'] [] '\t' ⟨[a, b], [e], hgap, rfl, by decide⟩ (by decide) (by decide) (by decide)

/-- Both ends of a range may lie in a gap that is indented as a whole. -/
theorem not_kept_of_gap :
    let t := "<a>\n\t<b/>\n\t<c/>\n</a>".toList
    let u := "<a>\n  x\n<b/></a>".toList
    ((indentRange .standard 4 10 t).text = "<a>\n\t<b/>\n<c/>\n</a>".toList ∧ keptFrom 10 t = 10 ∧
      ¬ dropWidth 10 t <:+ (indentRange .standard 4 10 t).text) ∧
    ((indentRange .standard 8 12 u).text = "<a>\nx\n\t<b/></a>".toList ∧ keptUntil 8 u = 8 ∧
      ¬ takeWidth 8 u <+: (indentRange .standard 8 12 u).text) := by
  decide +kernel

end

end SkinMarkup
