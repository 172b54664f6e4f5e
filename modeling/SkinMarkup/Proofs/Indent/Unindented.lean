import SkinMarkup.Proofs.Indent.Lines

/-!
# Lines without indentation

A text in front of a range may end in lines of a gap that is indented at level zero.
They stay as they are exactly if they are not indented (`prefix_reindent_iff`): every
break is a line feed, and no line behind a break starts with a blank.
-/

namespace SkinMarkup

/-- A text up to its last break. -/
def upToLine (t : Text) : Text :=
  dropEndWhile (fun c => !decide (IsBreak c)) t

/-- Lines as they are written without indentation: with line feeds, and without blanks
in front of any line but the first. -/
structure Unindented (t : Text) : Prop where
  feeds : '\r' ∉ t
  starts : ∀ x c y, t = x ++ '\n' :: c :: y → isBlank c = true → c = '\n'

section Lines

variable {s t : Text} {c : Char}

theorem upToLine_of_oneLine (h : OneLine t) : upToLine t = [] := by
  rw [upToLine, dropEndWhile, List.dropWhile_eq_nil_iff.mpr]
  · rfl
  · intro c hc
    simpa using h c (List.mem_reverse.mp hc)

theorem upToLine_append_oneLine (s : Text) (h : OneLine t) : upToLine (s ++ t) = upToLine s := by
  rw [upToLine, dropEndWhile, List.reverse_append, List.dropWhile_append_of_pos]
  · rfl
  · intro c hc
    simpa using h c (List.mem_reverse.mp hc)

theorem upToLine_append_break (s : Text) (h : IsBreak c) : upToLine (s ++ [c]) = s ++ [c] := by
  rw [upToLine, dropEndWhile, List.reverse_append, List.reverse_singleton, List.singleton_append,
    List.dropWhile_cons_of_neg (by simpa using h), List.reverse_cons, List.reverse_reverse]

/-- A text is a single line, or some lines with their breaks and another line. -/
theorem oneLine_or_exists_break (t : Text) :
    OneLine t ∨ ∃ l c r, t = l ++ [c] ++ r ∧ IsBreak c ∧ OneLine r := by
  induction t using List.reverseRecOn with
  | nil => exact Or.inl fun c hc => absurd hc List.not_mem_nil
  | append_singleton t d ih =>
    by_cases hd : IsBreak d
    · exact Or.inr ⟨t, d, [], by simp, hd, fun c hc => absurd hc List.not_mem_nil⟩
    · have hlast : OneLine [d] := by
        intro c hc
        rwa [List.mem_singleton.mp hc]
      rcases ih with hline | ⟨l, c, r, rfl, hc, hr⟩
      · exact Or.inl (hline.append hlast)
      · exact Or.inr ⟨l, c, r ++ [d], by simp, hc, hr.append hlast⟩

theorem prefix_upToLine (t : Text) : upToLine t <+: t :=
  ⟨_, dropEndWhile_append_takeEndWhile _ t⟩

/-- The lines of a text in front of one of its parts end in that part if it has a break. -/
theorem upToLine_append (s t : Text) :
    upToLine (s ++ t) = if OneLine t then upToLine s else s ++ upToLine t := by
  split
  · next hline => exact upToLine_append_oneLine s hline
  · next hline =>
    obtain ⟨l, c, r, rfl, hc, hr⟩ := (oneLine_or_exists_break t).resolve_left hline
    rw [← List.append_assoc, upToLine_append_oneLine _ hr, upToLine_append_oneLine _ hr,
      upToLine_append_break l hc, ← List.append_assoc, upToLine_append_break _ hc]

end Lines

/-! ## Lines that stay as they are when they are indented at level zero -/

namespace Unindented

variable {t : Text} {c : Char}

theorem nil : Unindented [] :=
  ⟨List.not_mem_nil, fun x c y h => by simp at h⟩

theorem feed : Unindented ['\n'] := by
  refine ⟨by decide, fun x d y heq => ?_⟩
  have hlength := congrArg List.length heq
  simp only [List.length_append, List.length_cons, List.length_nil] at hlength
  omega

theorem cons_iff (hc : ¬ IsBreak c) : Unindented (c :: t) ↔ Unindented t := by
  rw [IsBreak, not_or] at hc
  constructor
  · intro h
    refine ⟨fun hmem => h.feeds (List.mem_cons_of_mem c hmem), fun x d y heq => ?_⟩
    exact h.starts (c :: x) d y (by rw [heq]; rfl)
  · intro h
    refine ⟨List.not_mem_cons_of_ne_of_not_mem (Ne.symm hc.2) h.feeds, fun x d y heq => ?_⟩
    cases x with
    | nil => exact absurd (List.cons.inj heq).1 hc.1
    | cons e x => exact h.starts x d y (List.cons.inj heq).2

theorem feed_cons_iff {d : Char} :
    Unindented ('\n' :: d :: t) ↔ (isBlank d = true → d = '\n') ∧ Unindented (d :: t) := by
  constructor
  · intro h
    refine ⟨h.starts [] d t rfl, ⟨fun hmem => h.feeds (List.mem_cons_of_mem _ hmem), ?_⟩⟩
    exact fun x e y heq => h.starts ('\n' :: x) e y (by rw [heq]; rfl)
  · rintro ⟨hd, h⟩
    refine ⟨List.not_mem_cons_of_ne_of_not_mem (by decide) h.feeds, fun x e y heq => ?_⟩
    cases x with
    | nil =>
      obtain ⟨-, heq⟩ := List.cons.inj heq
      obtain ⟨rfl, -⟩ := List.cons.inj heq
      exact hd
    | cons f x => exact h.starts x e y (List.cons.inj heq).2

end Unindented

namespace IndentStyle

variable {style : IndentStyle} {level : Nat} {trimLast : Bool} {t : Text} {c : Char}

theorem reindent_of_oneLine (h : OneLine t) : style.reindent level true trimLast t = t := by
  rw [reindent_eq_joinWith (linesOf_of_oneLine h), lay, joinWith_singleton]

theorem reindent_cons_true (hc : ¬ IsBreak c) (t : Text) :
    style.reindent level true trimLast (c :: t) = c :: style.reindent level true trimLast t := by
  obtain ⟨first, lines, hlines⟩ := exists_linesOf t
  rw [reindent_eq_joinWith hlines, reindent_eq_joinWith (linesOf_cons hc hlines), joinWith_cons,
    joinWith_cons, List.cons_append]

theorem indentLine_zero (line : Text) : style.indentLine 0 line = line := by
  rw [indentLine]
  split
  · next hnil => rw [hnil]
  · rfl

/-- Behind a break a text with a break of its own is indented like a text without one in
front, if it does not start with a blank. -/
theorem reindent_feed (hbreak : ¬ OneLine t) (hfirst : ∀ c ∈ t.head?, isBlank c = true → c = '\n') :
    style.reindent 0 true true ('\n' :: t) = '\n' :: style.reindent 0 true true t := by
  obtain ⟨first, lines, hlines⟩ := exists_linesOf t
  obtain ⟨second, lines, rfl⟩ : ∃ second others, lines = second :: others := by
    apply List.exists_cons_of_ne_nil
    rintro rfl
    exact hbreak (oneLine_of_linesOf hlines)
  have hstart : trimStart first = first := by
    apply trimStart_of_first
    intro c hc
    cases first with
    | nil => cases hc
    | cons d ds =>
      cases hc
      cases t with
      | nil => cases hlines
      | cons e es =>
        by_contra hblank
        have hblank : isBlank c = true := by simpa using hblank
        have hline : OneLine (c :: ds) :=
          oneLine_of_mem_linesOf (by rw [hlines]; exact List.mem_cons_self)
        by_cases he : IsBreak e
        · -- A text that starts with a break has an empty first line.
          have heq : e = '\n' := hfirst e rfl (isBlank_of_isBreak he)
          subst heq
          rw [linesOf_feed] at hlines
          cases hlines
        · obtain ⟨first', lines', hlines'⟩ := exists_linesOf es
          rw [linesOf_cons he hlines'] at hlines
          cases hlines
          have heq : c = '\n' := hfirst c rfl hblank
          exact he (Or.inl heq)
  have hfeed : linesOf ('\n' :: t) = [] :: first :: second :: lines := by rw [linesOf_feed, hlines]
  rw [reindent_eq_joinWith hfeed, reindent_eq_joinWith hlines, lay, List.isEmpty_cons,
    Bool.and_false, if_neg Bool.false_ne_true, hstart, indentLine_zero, joinWith_cons_cons,
    List.nil_append]

/-- Behind a break a line that starts with a blank is written without it. -/
theorem head_reindent_feed (style : IndentStyle) {d : Char} (hd : isBlank d = true) (hne : d ≠ '\n')
    (hbreak : ¬ OneLine (d :: t)) :
    ∃ e rest, style.reindent 0 true true ('\n' :: d :: t) = '\n' :: e :: rest ∧ e ≠ d := by
  obtain ⟨first, lines, hlines⟩ := exists_linesOf (d :: t)
  obtain ⟨second, lines, rfl⟩ : ∃ second others, lines = second :: others := by
    apply List.exists_cons_of_ne_nil
    rintro rfl
    exact hbreak (oneLine_of_linesOf hlines)
  have hfeed : linesOf ('\n' :: d :: t) = [] :: first :: second :: lines := by
    rw [linesOf_feed, hlines]
  rw [reindent_eq_joinWith hfeed, lay, lay, List.isEmpty_cons, Bool.and_false,
    if_neg Bool.false_ne_true, indentLine_zero, joinWith_cons_cons, joinWith_cons_cons,
    List.nil_append]
  cases hstart : trimStart first with
  | nil => exact ⟨'\n', _, rfl, hne.symm⟩
  | cons e es =>
    refine ⟨e, _, rfl, ?_⟩
    rintro rfl
    have hfirst := first_trimStart first
    rw [hstart] at hfirst
    rw [hfirst e rfl] at hd
    cases hd

/-- A gap of several lines that has been indented ends in a break or in what is not
blank. -/
theorem last_reindent (style : IndentStyle) (h : ¬ OneLine t) (level : Nat) :
    ∃ u d, style.reindent level true true t = u ++ [d] ∧ (isBlank d = true → d = '\n') := by
  obtain ⟨first, lines, hlines⟩ := exists_linesOf t
  have hne : lines ≠ [] := by
    rintro rfl
    exact h (oneLine_of_linesOf hlines)
  obtain ⟨rest, last, hlay⟩ := (List.eq_nil_or_concat (style.lay level true lines)).resolve_left
    fun hnil => hne ((lay_eq_nil_iff lines).mp hnil)
  rw [List.concat_eq_append] at hlay
  have hjoin : style.reindent level true true t = joinWith '\n' (first :: rest) ++ '\n' :: last := by
    rw [reindent_eq_joinWith hlines, hlay, ← List.cons_append,
      joinWith_concat (List.cons_ne_nil first rest)]
  rcases List.eq_nil_or_concat last with rfl | ⟨u, d, hu⟩
  · exact ⟨_, '\n', hjoin, fun _ => rfl⟩
  · rw [List.concat_eq_append] at hu
    refine ⟨joinWith '\n' (first :: rest) ++ '\n' :: u, d, by rw [hjoin, hu]; simp, fun hd => ?_⟩
    rw [last_lay hlay d (by rw [hu]; exact List.getLast?_concat)] at hd
    cases hd

theorem exists_reindent_return (style : IndentStyle) (t : Text) :
    ∃ rest, style.reindent 0 true true ('\r' :: t) = '\n' :: rest := by
  obtain ⟨u, hnormal⟩ : ∃ u, normalizeBreaks ('\r' :: t) = '\n' :: u := by
    by_cases ht : ∃ cs, t = '\n' :: cs
    · obtain ⟨cs, rfl⟩ := ht
      exact ⟨normalizeBreaks cs, by rw [normalizeBreaks]⟩
    · refine ⟨normalizeBreaks t, ?_⟩
      rw [normalizeBreaks, if_pos rfl]
      exact fun cs _ h => ht ⟨cs, h⟩
  have hne : partsAt '\n' u ≠ [] := by
    rw [partsAt_eq_splitOn]
    exact List.splitOn_ne_nil _ _
  obtain ⟨first, lines, hlines⟩ := List.exists_cons_of_ne_nil hne
  have hreturn : linesOf ('\r' :: t) = [] :: first :: lines := by
    rw [linesOf, hnormal, partsAt, if_pos rfl, hlines]
  rw [reindent_eq_joinWith hreturn, lay, joinWith_cons_cons]
  exact ⟨_, rfl⟩

/-- **Lines in front of others stay as they are at level zero exactly if they are not
indented.** -/
theorem prefix_reindent_iff {l : Text} (hc : IsBreak c) (r more : Text) :
    l ++ [c] <+: style.reindent 0 true true (l ++ [c] ++ r) ++ more ↔ Unindented (l ++ [c]) := by
  have hreturn : ∀ u v : Text,
      ¬ '\r' :: u <+: style.reindent 0 true true ('\r' :: v) ++ more := by
    intro u v hprefix
    obtain ⟨rest, hrest⟩ := exists_reindent_return style v
    rw [hrest] at hprefix
    exact absurd (List.cons_prefix_cons.mp hprefix).1 (by decide)
  induction l with
  | nil =>
    rcases hc with rfl | rfl
    · constructor
      · exact fun _ => Unindented.feed
      · intro _
        obtain ⟨first, lines, hlines⟩ := exists_linesOf r
        have hfeed : linesOf ('\n' :: r) = [] :: first :: lines := by rw [linesOf_feed, hlines]
        show ['\n'] <+: style.reindent 0 true true ('\n' :: r) ++ more
        rw [reindent_eq_joinWith hfeed, lay, joinWith_cons_cons]
        exact ⟨_, rfl⟩
    · constructor
      · exact fun h => absurd h (hreturn [] r)
      · exact fun h => absurd List.mem_cons_self h.feeds
  | cons d l ih =>
    rw [List.cons_append, List.cons_append]
    by_cases hd : IsBreak d
    · rcases hd with rfl | rfl
      · obtain ⟨e, u, hu⟩ : ∃ e u, l ++ [c] = e :: u :=
          List.exists_cons_of_ne_nil (List.append_ne_nil_of_right_ne_nil l (List.cons_ne_nil c []))
        have hbreak : ¬ OneLine (l ++ [c] ++ r) := fun h => h c (by simp) hc
        rw [hu, List.cons_append] at ih hbreak
        rw [hu, List.cons_append, Unindented.feed_cons_iff]
        by_cases he : isBlank e = true → e = '\n'
        · rw [reindent_feed hbreak fun c hc => by cases hc; exact he, List.cons_append,
            List.cons_prefix_cons]
          exact ⟨fun h => ⟨he, ih.mp h.2⟩, fun h => ⟨rfl, ih.mpr h.2⟩⟩
        · obtain ⟨hblank, hne⟩ := Classical.not_imp.mp he
          obtain ⟨f, rest, hrest, hf⟩ := head_reindent_feed style hblank hne hbreak
          constructor
          · intro h
            rw [hrest, List.cons_append, List.cons_append] at h
            obtain ⟨-, h⟩ := List.cons_prefix_cons.mp h
            exact absurd (List.cons_prefix_cons.mp h).1 hf.symm
          · exact fun h => absurd h.1 he
      · constructor
        · exact fun h => absurd h (hreturn _ _)
        · exact fun h => absurd List.mem_cons_self h.feeds
    · rw [Unindented.cons_iff hd, reindent_cons_true hd, List.cons_append, List.cons_prefix_cons]
      exact ⟨fun h => ih.mp h.2, fun h => ⟨rfl, ih.mpr h⟩⟩

end IndentStyle

end SkinMarkup
