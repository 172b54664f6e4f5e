import SkinMarkup.Proofs.Indent.Lines
import SkinMarkup.Proofs.Scan.Respaced
import SkinMarkup.Proofs.Scan.Stopped

/-!
# Indenting a whole text

Indenting moves blanks only, whatever the range is (`solid_indentRange`). Over a whole
text it lays out one segment after the other (`run_whole`), and a segment that is laid
out is scanned as a gap and a token of the same kind (`IsCut.laid`), also where the scan
fails later. **So a text that has been indented is indented already, and each token that
starts a line stands at its level** (`settled_of_indentRange`).
-/

namespace SkinMarkup

/-! ## Levels -/

namespace TokenKind

/-- The level of a token inside some elements. An end tag stands where its start tag
does. -/
def levelIn (kind : TokenKind) (depth : Nat) : Nat :=
  if kind = closing then depth - 1 else depth

/-- The level behind a token. -/
def levelBehind (kind : TokenKind) (depth : Nat) : Nat :=
  if kind = opening then kind.levelIn depth + 1 else kind.levelIn depth

theorem levelBehind_of_depthAfter {kind : TokenKind} {depth depth' : Nat}
    (h : kind.depthAfter depth = some depth') : kind.levelBehind depth = depth' := by
  cases kind with
  | closing =>
    cases depth with
    | zero => cases h
    | succ depth =>
      cases h
      rfl
  | _ =>
    cases h
    rfl

end TokenKind

/-- The level of a token among others, of which `before` stand before it: the number of
elements that are open around it, or around its element if it is an end tag. -/
def Token.levelAmong (before : List Token) (token : Token) : Nat :=
  token.kind.levelIn
    ((before.map (·.kind)).count .opening - (before.map (·.kind)).count .closing)

/-! ## Laying out segments -/

namespace Segment

variable {style : IndentStyle} {depth : Nat} {s : Segment}

/-- The blanks that are written in front of a token after a gap: those of its level at the
start of a line, and none elsewhere. -/
def margin (style : IndentStyle) (level : Nat) (gap : Text) : Text :=
  if gap.getLast? = some '\n' then style.levels level else []

/-- A segment as it is laid out inside some elements. -/
def laid (style : IndentStyle) (depth : Nat) (s : Segment) : Segment :=
  let gap := style.reindent depth true true s.gap
  let level := s.token.kind.levelIn depth
  ⟨gap ++ margin style level gap,
    { s.token with text := style.reindent level true false s.token.text }⟩

/-- Segments as they are laid out, the first of them inside some elements. -/
def layAll (style : IndentStyle) : (depth : Nat) → List Segment → List Segment
  | _, [] => []
  | depth, s :: rest => s.laid style depth :: layAll style (s.token.kind.levelBehind depth) rest

theorem blanks_margin (h : style.Plain) (level : Nat) (gap : Text) :
    Blanks (margin style level gap) := by
  rw [margin]
  split
  · exact h.blanks_levels level
  · exact blanks_nil

theorem mem_of_mem_reindent (h : style.Plain) {c : Char} (hc : isBlank c = false) {level : Nat}
    {keepFirst trimLast : Bool} {t : Text} (hmem : c ∈ style.reindent level keepFirst trimLast t) :
    c ∈ t := by
  have hsolid : c ∈ solid (style.reindent level keepFirst trimLast t) :=
    List.mem_filter.mpr ⟨hmem, by simp [hc]⟩
  rw [h.solid_reindent] at hsolid
  exact (List.mem_filter.mp hsolid).1

/-! ### A token stays a token -/

theorem respaced_normalizeBreaks (t : Text) : Respaced t (normalizeBreaks t) := by
  have hreturn : isBlank '\r' = true := rfl
  have hfeed : isBlank '\n' = true := rfl
  fun_induction normalizeBreaks t with
  | case1 => exact .nil
  | case2 cs ih =>
    have hpair : Blanks ['\r', '\n'] := by simp [Blanks, hreturn, hfeed]
    have hone : Blanks ['\n'] := by simp [Blanks, hfeed]
    exact ih.change hpair (List.cons_ne_nil _ _) hone (List.cons_ne_nil _ _)
  | case3 c cs hpair ih =>
    by_cases hc : c = '\r'
    · subst hc
      have hfrom : Blanks ['\r'] := by simp [Blanks, hreturn]
      have hto : Blanks ['\n'] := by simp [Blanks, hfeed]
      exact ih.change hfrom (List.cons_ne_nil _ _) hto (List.cons_ne_nil _ _)
    · rw [if_neg hc]
      exact ih.keep c

/-- Lines behind a first one that are laid out have got other blanks behind their breaks. -/
theorem respaced_lay (h : style.Plain) (level : Nat) (lines : List Text) :
    Respaced (lines.flatMap ('\n' :: ·)) ((style.lay level false lines).flatMap ('\n' :: ·)) := by
  have hfeed : isBlank '\n' = true := rfl
  induction lines with
  | nil => exact .nil
  | cons line lines ih =>
    rw [IndentStyle.lay, List.flatMap_cons, List.flatMap_cons, Bool.false_and,
      if_neg Bool.false_ne_true]
    apply Respaced.append _ ih
    -- A break and the blanks behind it become a break and a level, or a break alone.
    have hfrom : Blanks ('\n' :: line.takeWhile isBlank) :=
      List.forall_mem_cons.mpr ⟨hfeed, blanks_takeWhile line⟩
    have hto : ∀ {b : Text}, Blanks b → Blanks ('\n' :: b) :=
      fun hb => List.forall_mem_cons.mpr ⟨hfeed, hb⟩
    have hchange : ∀ {b : Text}, Blanks b →
        Respaced ('\n' :: line) ('\n' :: (b ++ trimStart line)) := by
      intro b hb
      have hline := (Respaced.refl (trimStart line)).change hfrom (List.cons_ne_nil _ _) (hto hb)
        (List.cons_ne_nil _ _)
      rwa [List.cons_append, takeWhile_append_trimStart] at hline
    rw [IndentStyle.indentLine]
    split
    · next hnil =>
      have hline := hchange blanks_nil
      rwa [List.nil_append, hnil] at hline
    · exact hchange (h.blanks_levels level)

/-- **A token that is indented is a token of the same kind.** -/
theorem isCut_reindent (h : style.Plain) {token : Token} (hcut : token.IsCut) (level : Nat) :
    Token.IsCut { token with text := style.reindent level true false token.text } := by
  obtain ⟨first, lines, hlines⟩ := exists_linesOf token.text
  have hnormal : Respaced token.text (joinWith '\n' (first :: lines)) := by
    rw [← hlines, joinWith_linesOf]
    exact respaced_normalizeBreaks token.text
  have hindented : Respaced (joinWith '\n' (first :: lines))
      (style.reindent level true false token.text) := by
    rw [IndentStyle.reindent_eq_joinWith hlines, joinWith_cons, joinWith_cons]
    exact (Respaced.refl first).append (respaced_lay h level lines)
  exact (hcut.respaced hnormal).respaced hindented

theorem IsCut.laid (h : style.Plain) (hs : s.IsCut) (depth : Nat) : (s.laid style depth).IsCut := by
  constructor
  · intro hmem
    rcases List.mem_append.mp hmem with hmem | hmem
    · exact hs.gap (mem_of_mem_reindent h rfl hmem)
    · cases blanks_margin h _ _ _ hmem
  · exact isCut_reindent h hs.token _

/-! ### Laying out twice -/

/-- The margin of a token is dropped when its gap is laid out again. -/
theorem reindent_append_margin (h : style.Plain) (level : Nat) (t : Text) :
    style.reindent depth true true (style.reindent depth true true t ++
        margin style level (style.reindent depth true true t)) =
      style.reindent depth true true t := by
  have hreturn := h.not_mem_reindent depth true t
  have htwice := h.reindent_reindent depth true t
  generalize style.reindent depth true true t = gap at hreturn htwice
  rw [margin]
  split
  · next hlast =>
    obtain ⟨g, rfl⟩ := List.getLast?_eq_some_iff.mp hlast
    have hg : '\r' ∉ g := fun hmem => hreturn (List.mem_append_left _ hmem)
    rw [List.append_assoc, List.singleton_append,
      IndentStyle.reindent_append_blanks (h.blanks_levels level) (h.oneLine_levels level) hg, htwice]
  · rw [List.append_nil, htwice]

/-- **A segment is laid out once.** -/
theorem laid_laid (h : style.Plain) (depth : Nat) (s : Segment) :
    (s.laid style depth).laid style depth = s.laid style depth := by
  simp only [laid, reindent_append_margin h, h.reindent_reindent]

theorem layAll_layAll (h : style.Plain) (depth : Nat) (segments : List Segment) :
    layAll style depth (layAll style depth segments) = layAll style depth segments := by
  induction segments generalizing depth with
  | nil => rfl
  | cons s rest ih =>
    have hkind : (s.laid style depth).token.kind = s.token.kind := rfl
    rw [layAll, layAll, laid_laid h, hkind, ih]

theorem map_unplaced_layAll (depth : Nat) (segments : List Segment) :
    (layAll style depth segments).map unplaced = layAll style depth (segments.map unplaced) := by
  induction segments generalizing depth with
  | nil => rfl
  | cons s rest ih =>
    rw [layAll, List.map_cons, List.map_cons, layAll, ih]
    rfl

theorem depthAfter_layAll (level depth : Nat) (segments : List Segment) :
    depthAfter depth (layAll style level segments) = depthAfter depth segments := by
  induction segments generalizing level depth with
  | nil => rfl
  | cons s rest ih =>
    rw [layAll, depthAfter, depthAfter]
    exact congrArg _ (funext fun depth => ih _ depth)

theorem isCut_layAll (h : style.Plain) {segments : List Segment} (hcut : ∀ s ∈ segments, s.IsCut)
    (depth : Nat) : ∀ s ∈ layAll style depth segments, s.IsCut := by
  induction segments generalizing depth with
  | nil => exact fun s hs => absurd hs List.not_mem_nil
  | cons s rest ih =>
    obtain ⟨hs, hrest⟩ := List.forall_mem_cons.mp hcut
    exact List.forall_mem_cons.mpr ⟨hs.laid h depth, ih hrest _⟩

/-- The segments before one of those that are laid out give its level. -/
theorem exists_of_layAll_eq_append {segments before after : List Segment} {s' : Segment}
    {final : Nat} (hdepth : depthAfter depth segments = some final)
    (h : layAll style depth segments = before ++ s' :: after) :
    ∃ (s : Segment) (inner : Nat), depthAfter depth before = some inner ∧ s' = s.laid style inner := by
  induction before generalizing depth segments with
  | nil =>
    cases segments with
    | nil => cases h
    | cons s rest => exact ⟨s, depth, rfl, (List.cons.inj h).1.symm⟩
  | cons b before ih =>
    cases segments with
    | nil => cases h
    | cons s rest =>
      obtain ⟨rfl, hrest⟩ := List.cons.inj h
      obtain ⟨depth', hfirst, hdepth'⟩ := Option.bind_eq_some_iff.mp hdepth
      rw [TokenKind.levelBehind_of_depthAfter hfirst] at hrest
      obtain ⟨s₁, inner, hinner, hs₁⟩ := ih hdepth' hrest
      refine ⟨s₁, inner, ?_, hs₁⟩
      show (s.token.kind.depthAfter depth).bind (fun depth => depthAfter depth before) = some inner
      rw [hfirst, Option.bind_some, hinner]

end Segment

/-! ## Running over a whole text -/

theorem eq_nil_of_width_eq_zero {t : Text} (h : width t = 0) : t = [] := by
  cases t with
  | nil => rfl
  | cons c cs =>
    have hpos := Char.utf8Size_pos c
    rw [width_cons] at h
    omega

namespace IndentTask

variable {task : IndentTask} {phase : IndentPhase} {depth : Nat}

/-- A token behind a gap that has been indented. -/
theorem tokenText_eq {token : Token} {gap : Text}
    (hlevel : phase.level task.style task.source = depth) (hcut : token.IsCut) (hgap : '\r' ∉ gap) :
    task.tokenText phase gap token =
      (Segment.margin task.style (token.kind.levelIn depth) gap ++
          task.style.reindent (token.kind.levelIn depth) true false token.text,
        .within (token.kind.levelBehind depth)) := by
  have hstart : (gap.getLast?.any fun c => c == '\n' || c == '\r') =
      decide (gap.getLast? = some '\n') := by
    cases hlast : gap.getLast? with
    | none => rfl
    | some c =>
      have hreturn : c ≠ '\r' := by
        rintro rfl
        exact hgap (List.mem_of_getLast? hlast)
      have hne : (c == '\r') = false := beq_eq_false_iff_ne.mpr hreturn
      rw [Option.any_some, hne, Bool.or_false, Bool.eq_iff_iff, beq_iff_eq, decide_eq_true_eq,
        Option.some.injEq]
  obtain ⟨body, hbody, -⟩ := hcut
  have htext : task.tokenText phase gap token =
      (task.style.reindent (token.kind.levelIn depth) (!decide (gap.getLast? = some '\n')) false
          token.text, .within (token.kind.levelBehind depth)) := by
    rw [tokenText, hlevel, hstart]
    rfl
  rw [htext, Segment.margin]
  by_cases hlast : gap.getLast? = some '\n'
  · rw [if_pos hlast, decide_eq_true hlast, Bool.not_true, hbody,
      IndentStyle.reindent_cons_false rfl]
  · rw [if_neg hlast, decide_eq_false hlast, Bool.not_false, List.nil_append]

/-- A token as it is written, and the phase behind it. -/
def tokenStep (task : IndentTask) (phase : IndentPhase) (segment : Segment) : Text × IndentPhase :=
  if task.start ≤ segment.token.stop then
    task.tokenText phase (task.gapText phase segment) segment.token
  else
    (segment.token.text, phase.note segment.token)

theorem tokenStep_of_le {segment : Segment} (h : task.start ≤ segment.token.stop) :
    task.tokenStep phase segment =
      task.tokenText phase (task.gapText phase segment) segment.token :=
  if_pos h

theorem run_cons (task : IndentTask) (s : Scan) (phase : IndentPhase) (segment : Segment)
    (rest : List Segment) :
    task.run s phase (segment :: rest) =
      if task.stop ≤ segment.token.start then
        ⟨task.gapText phase segment ++ segment.token.text ++ (Segment.sourceAll rest ++ s.tail), true⟩
      else if task.stop ≤ segment.token.stop then
        ⟨task.gapText phase segment ++ (task.tokenStep phase segment).1 ++
          (Segment.sourceAll rest ++ s.tail), true⟩
      else
        ⟨task.gapText phase segment ++ (task.tokenStep phase segment).1 ++
            (task.run s (task.tokenStep phase segment).2 rest).text,
          (task.run s (task.tokenStep phase segment).2 rest).complete⟩ :=
  rfl

/-- **No run moves anything but blanks.** -/
theorem solid_run (h : task.style.Plain) (s : Scan) (phase : IndentPhase) (segments : List Segment) :
    solid (task.run s phase segments).text = solid (Segment.sourceAll segments ++ s.tail) := by
  induction segments generalizing phase with
  | nil => rfl
  | cons segment rest ih =>
    have hgap : solid (task.gapText phase segment) = solid segment.gap := by
      rw [gapText]
      split
      · exact h.solid_reindent _ _ _ _
      · rfl
    have htoken : solid (task.tokenStep phase segment).1 = solid segment.token.text := by
      rw [tokenStep]
      split
      · exact h.solid_reindent _ _ _ _
      · rfl
    have hsource : solid (Segment.sourceAll (segment :: rest) ++ s.tail) =
        solid segment.gap ++ solid segment.token.text ++
          solid (Segment.sourceAll rest ++ s.tail) := by
      rw [Segment.sourceAll_cons, List.append_assoc, solid_append, solid_append]
    rw [run_cons, hsource]
    split
    · rw [solid_append, solid_append, hgap]
    · split
      · rw [solid_append, solid_append, hgap, htoken]
      · rw [solid_append, solid_append, hgap, htoken, ih]

/-- **A run over a whole text lays out one segment after the other.** -/
theorem run_whole (h : task.style.Plain) (hstart : task.start = 0) {s : Scan}
    (htail : s.tail = [] → s.failure = none) {segments : List Segment} {offset : Nat}
    (hstop : task.stop = offset + width (Segment.sourceAll segments ++ s.tail))
    (hplaces : Segment.Consecutive offset segments) (hcut : ∀ segment ∈ segments, segment.IsCut)
    (hlevel : phase.level task.style task.source = depth) (hgap : phase.gapLevel = depth) :
    task.run s phase segments =
      ⟨Segment.sourceAll (Segment.layAll task.style depth segments) ++ s.tail,
        s.failure.isNone⟩ := by
  induction segments generalizing phase depth offset with
  | nil => rfl
  | cons segment rest ih =>
    obtain ⟨hs, hrest⟩ := List.forall_mem_cons.mp hcut
    obtain ⟨hplace, hplaces⟩ := hplaces
    have hwidth : task.stop = segment.token.stop + width (Segment.sourceAll rest ++ s.tail) := by
      rw [hstop, Segment.sourceAll_cons, List.append_assoc, width_append, width_append, Token.stop,
        hplace]
      omega
    obtain ⟨body, hbody, -⟩ := hs.token
    have hnonempty : segment.token.start < segment.token.stop := by
      have hpos := Char.utf8Size_pos '<'
      rw [Token.stop, hbody, width_cons]
      omega
    have hgapText : task.gapText phase segment =
        task.style.reindent depth true true segment.gap := by
      rw [gapText, if_pos (by omega), hgap]
    have hreturn := h.not_mem_reindent depth true segment.gap
    have hstep := tokenText_eq hlevel hs.token hreturn
    rw [← hgapText, ← tokenStep_of_le (by omega)] at hstep
    rw [run_cons, hstep, hgapText, if_neg (by omega), Segment.layAll, Segment.sourceAll_cons]
    dsimp only
    split
    · -- The last token ends the text, so nothing has been left out.
      next hlast =>
      have hnil : Segment.sourceAll rest ++ s.tail = [] := by
        apply eq_nil_of_width_eq_zero
        omega
      obtain ⟨hothers, hempty⟩ := List.append_eq_nil_iff.mp hnil
      obtain rfl : rest = [] := by
        cases rest with
        | nil => rfl
        | cons other rest =>
          obtain ⟨body, hbody, -⟩ := (hrest other List.mem_cons_self).token
          rw [Segment.sourceAll_cons, hbody] at hothers
          simp at hothers
      rw [htail hempty, hempty]
      simp [Segment.laid, Segment.layAll, Segment.sourceAll]
    · have hothers : task.run s (.within (segment.token.kind.levelBehind depth)) rest =
          ⟨Segment.sourceAll (Segment.layAll task.style (segment.token.kind.levelBehind depth) rest) ++
            s.tail, s.failure.isNone⟩ := ih hwidth hplaces hrest rfl rfl
      rw [hothers]
      simp [Segment.laid]

end IndentTask

/-! ## Tokens at the start of a line -/

section

variable {style : IndentStyle} {t : Text}

theorem takeWidth_width_append (s t : Text) : takeWidth (width s) (s ++ t) = s := by
  have hsplit := takeWidth_append_dropWidth (width s) (s ++ t)
  rw [dropWidth_width_append] at hsplit
  exact List.append_cancel_right hsplit

namespace Segment

/-- **A token that stands behind a break and blanks stands at its level.** -/
theorem eq_levels_of_laid (h : style.Plain) {depth : Nat} {s : Segment} {x b : Text} {c : Char}
    (hc : IsBreak c) (hb : Blanks b) (hline : OneLine b)
    (heq : (s.laid style depth).gap = x ++ c :: b) :
    b = style.levels (s.token.kind.levelIn depth) := by
  simp only [laid, margin] at heq
  split at heq
  · next hlast =>
    obtain ⟨g, hg⟩ := List.getLast?_eq_some_iff.mp hlast
    rw [hg, List.append_assoc] at heq
    exact (eq_of_append_break (h.oneLine_levels _) hline (Or.inl rfl) hc heq).2.2.symm
  · next hlast =>
    rw [List.append_nil] at heq
    obtain ⟨rfl, rfl⟩ := h.eq_nil_of_reindent hc hb hline heq
    rw [heq] at hlast
    exact absurd List.getLast?_concat hlast

theorem depthAfter_map_unplaced (depth : Nat) (segments : List Segment) :
    depthAfter depth (segments.map unplaced) = depthAfter depth segments := by
  induction segments generalizing depth with
  | nil => rfl
  | cons s rest ih =>
    rw [List.map_cons, depthAfter, depthAfter]
    exact congrArg _ (funext fun depth => ih depth)

/-- What segments make up ends in the `>` of the last token. -/
theorem last_sourceAll {segments : List Segment}
    (henclosed : ∀ s ∈ segments, ∃ body, s.token.text = '<' :: body ++ ['>']) :
    ∀ c ∈ (sourceAll segments).getLast?, c = '>' := by
  induction segments using List.reverseRecOn with
  | nil => exact fun c hc => by cases hc
  | append_singleton segments s _ =>
    obtain ⟨body, hbody⟩ := henclosed s (List.mem_append_right _ List.mem_cons_self)
    have hsource : sourceAll (segments ++ [s]) =
        sourceAll segments ++ (s.gap ++ '<' :: body) ++ ['>'] := by
      rw [sourceAll_append, sourceAll_cons, hbody]
      simp [sourceAll]
    intro c hc
    rw [hsource, List.getLast?_concat] at hc
    cases hc
    rfl

end Segment

/-- A segment divides the text of a scan. -/
theorem Scan.source_of_split {before after : List Segment} {s : Segment}
    (h : (scan t).segments = before ++ s :: after) :
    t = Segment.sourceAll before ++ s.gap ++
        (s.token.text ++ (Segment.sourceAll after ++ (scan t).tail)) ∧
      s.token.start = width (Segment.sourceAll before ++ s.gap) := by
  have htiles := tiles_scan t
  have hsource := htiles.source
  have hplace := htiles.consecutive
  rw [h] at hsource hplace
  constructor
  · rw [Segment.sourceAll_append, Segment.sourceAll_cons] at hsource
    simpa using hsource.symm
  · rw [hplace.start_eq, Nat.zero_add, Segment.sourceAll]

/-- A break and blanks in front of a token stand in the gap before it. -/
theorem Scan.exists_gap_eq {before after : List Segment} {s : Segment}
    (hsplit : (scan t).segments = before ++ s :: after) {x b : Text} {c : Char} (hc : IsBreak c)
    (hb : Blanks b) (heq : takeWidth s.token.start t = x ++ c :: b) :
    ∃ y, s.gap = y ++ c :: b := by
  obtain ⟨hsource, hstart⟩ := Scan.source_of_split hsplit
  have htake : takeWidth s.token.start t = Segment.sourceAll before ++ s.gap := by
    rw [hstart]
    conv_lhs => rw [hsource]
    exact takeWidth_width_append _ _
  rw [htake] at heq
  rcases List.append_eq_append_iff.mp heq with ⟨m, -, hm⟩ | ⟨m, hm, hgap⟩
  · exact ⟨m, hm⟩
  · -- No token ends in a blank.
    rcases List.eq_nil_or_concat m with rfl | ⟨m', d, rfl⟩
    · exact ⟨[], hgap.symm⟩
    · have hlast : ∀ c ∈ (Segment.sourceAll before).getLast?, c = '>' := Segment.last_sourceAll
        fun s hs => (tiles_scan t).enclosed s (by rw [hsplit]; exact List.mem_append_left _ hs)
      rw [List.concat_eq_append] at hm hgap
      rw [hm, ← List.append_assoc] at hlast
      obtain rfl : d = '>' := hlast d List.getLast?_concat
      have hblanks : Blanks (c :: b) := List.forall_mem_cons.mpr ⟨isBlank_of_isBreak hc, hb⟩
      rw [hgap] at hblanks
      cases hblanks '>' (by simp)

/-! ## A text that has been indented -/

theorem solid_indentRange (h : style.Plain) (start stop : Nat) (t : Text) :
    solid (indentRange style start stop t).text = solid t := by
  have htask : (IndentTask.mk style t start stop).style.Plain := h
  have hrun := IndentTask.solid_run htask (scan t) (.before []) (scan t).segments
  rw [(tiles_scan t).source] at hrun
  exact hrun

/-- **Indenting a whole text lays out its segments** and copies what was not scanned. -/
theorem indentRange_width (h : style.Plain) (t : Text) :
    indentRange style 0 (width t) t =
      ⟨Segment.sourceAll (Segment.layAll style 0 (scan t).segments) ++ (scan t).tail,
        (scan t).failure.isNone⟩ := by
  have htiles := tiles_scan t
  have htail : (scan t).tail = [] → (scan t).failure = none := by
    intro hnil
    rw [Option.eq_none_iff_forall_ne_some]
    intro failure hfailure
    obtain ⟨gap, cs, htail, -⟩ := Scan.exists_remainder hfailure
    rw [htail] at hnil
    exact List.append_ne_nil_of_right_ne_nil gap (List.cons_ne_nil '<' cs) hnil
  have htask : (IndentTask.mk style t 0 (width t)).style.Plain := h
  apply IndentTask.run_whole htask rfl htail _ htiles.consecutive (Scan.divides_scanFrom 0 0 t).isCut
    rfl rfl
  show width t = 0 + width (Segment.sourceAll (scan t).segments ++ (scan t).tail)
  rw [Nat.zero_add, htiles.source]

/-- A text that has been indented is scanned into the segments that were laid out. -/
theorem unplaced_scan_indentRange (h : style.Plain) (t : Text) :
    (scan (indentRange style 0 (width t) t).text).unplaced =
      { (scan t).unplaced with
        segments := (Segment.layAll style 0 (scan t).segments).map Segment.unplaced } := by
  rw [indentRange_width h]
  apply unplaced_scan_segments (Segment.isCut_layAll h (Scan.divides_scanFrom 0 0 t).isCut 0)
  rw [Segment.depthAfter_layAll]
  exact Scan.depthAfter_scan t

/-- A text that indenting does not change, with each token that starts a line at its
level. -/
structure IndentStyle.Settled (style : IndentStyle) (t : Text) : Prop where
  again : (indentRange style 0 (width t) t).text = t
  level : ∀ before token after, (scan t).tokens = before ++ token :: after →
    ∀ x c b, takeWidth token.start t = x ++ c :: b → IsBreak c → Blanks b → OneLine b →
      b = style.levels (token.levelAmong before)

theorem again_of_indentRange (h : style.Plain) {once : Text}
    (honce : once = (indentRange style 0 (width t) t).text) :
    (indentRange style 0 (width once) once).text = once := by
  have hscan := unplaced_scan_indentRange h t
  rw [← honce] at hscan
  have hsegments : (scan once).segments.map Segment.unplaced =
      (Segment.layAll style 0 (scan t).segments).map Segment.unplaced :=
    congrArg Scan.segments hscan
  have htail : (scan once).tail = (scan t).tail := by
    have heq := congrArg Scan.tail hscan
    exact heq
  calc (indentRange style 0 (width once) once).text
      = Segment.sourceAll (Segment.layAll style 0 (scan once).segments) ++ (scan once).tail := by
        rw [indentRange_width h]
    _ = Segment.sourceAll (Segment.layAll style 0 ((scan once).segments.map Segment.unplaced)) ++
          (scan once).tail := by
        rw [← Segment.map_unplaced_layAll, Segment.sourceAll_map_unplaced]
    _ = Segment.sourceAll (Segment.layAll style 0 (Segment.layAll style 0 (scan t).segments)) ++
          (scan t).tail := by
        rw [hsegments, ← Segment.map_unplaced_layAll, Segment.sourceAll_map_unplaced, htail]
    _ = once := by rw [Segment.layAll_layAll h, honce, indentRange_width h]

theorem level_of_indentRange (h : style.Plain) {once : Text}
    (honce : once = (indentRange style 0 (width t) t).text) {before after : List Token}
    {token : Token} (htokens : (scan once).tokens = before ++ token :: after) {x b : Text} {c : Char}
    (heq : takeWidth token.start once = x ++ c :: b) (hc : IsBreak c) (hb : Blanks b)
    (hline : OneLine b) : b = style.levels (token.levelAmong before) := by
  obtain ⟨segments, rest, hsplit, rfl, hrest⟩ := List.map_eq_append_iff.mp htokens
  obtain ⟨s, others, rfl, rfl, rfl⟩ := List.map_eq_cons_iff.mp hrest
  obtain ⟨y, hgap⟩ := Scan.exists_gap_eq hsplit hc hb heq
  have hscan := congrArg Scan.segments (unplaced_scan_indentRange h t)
  rw [← honce] at hscan
  have hlaid : Segment.layAll style 0 ((scan t).segments.map Segment.unplaced) =
      segments.map Segment.unplaced ++ s.unplaced :: others.map Segment.unplaced := by
    rw [← Segment.map_unplaced_layAll]
    refine hscan.symm.trans ?_
    show (scan once).segments.map Segment.unplaced = _
    rw [hsplit, List.map_append, List.map_cons]
  have hdepth := Scan.depthAfter_scan t
  rw [← Segment.depthAfter_map_unplaced] at hdepth
  obtain ⟨s₀, inner, hinner, hs₀⟩ := Segment.exists_of_layAll_eq_append hdepth hlaid
  have hcount := Segment.depthAfter_add_count hinner
  rw [List.map_map] at hcount
  have hlevel : s.token.levelAmong (segments.map (·.token)) = s₀.token.kind.levelIn inner := by
    have hkind : s.token.kind = s₀.token.kind := congrArg (·.token.kind) hs₀
    have hkinds : (segments.map (·.token)).map (·.kind) =
        segments.map ((·.token.kind) ∘ Segment.unplaced) := List.map_map
    rw [Token.levelAmong, hkind, hkinds]
    congr 1
    omega
  have hgap₀ : (s₀.laid style inner).gap = y ++ c :: b := by rw [← hs₀, ← hgap]; rfl
  rw [hlevel]
  exact Segment.eq_levels_of_laid h hc hb hline hgap₀

/-- **Indenting moves blanks only, and a text that has been indented as a whole is
settled,** also if its scan fails. -/
theorem settled_of_indentRange (h : style.Plain) (t : Text) :
    (∀ start stop, solid (indentRange style start stop t).text = solid t) ∧
      style.Settled (indentRange style 0 (width t) t).text where
  left := fun start stop => solid_indentRange h start stop t
  right :=
    { again := again_of_indentRange h rfl
      level := fun _ _ _ htokens _ _ _ heq hc hb hline =>
        level_of_indentRange h rfl htokens heq hc hb hline }

/-- A text with a tag and a comment over several lines, which is not scanned to its
end. -/
theorem settled_of_stray_end :
    let t := "<a>\r\n <b\nx=\"1\"/><!--\n y --> z \n</a>\n</b>".toList
    let once := "<a>\n\t<b\n\tx=\"1\"/><!--\n\ty --> z \n</a>\n</b>".toList
    IndentStyle.standard.Plain ∧ (scan t).failure = some 36 ∧
      (indentRange .standard 0 (width t) t).text = once ∧
      (∀ start stop, solid (indentRange .standard start stop t).text = solid t) ∧
      IndentStyle.standard.Settled once := by
  intro t once
  have hplain : IndentStyle.standard.Plain := by decide
  have honce : (indentRange .standard 0 (width t) t).text = once := by decide +kernel
  obtain ⟨hmoves, hsettled⟩ := settled_of_indentRange hplain t
  rw [honce] at hsettled
  exact ⟨hplain, by decide +kernel, honce, hmoves, hsettled⟩

end

end SkinMarkup
