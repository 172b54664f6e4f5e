import SkinMarkup.Indent
import SkinMarkup.Proofs.State.Lists
import SkinMarkup.Proofs.Text.Trim

/-!
# The lines of an indented text

Indenting a text anew lays out its lines one by one (`reindent_eq_joinWith`). It moves
no character that is not blank (`solid_reindent`), and a line that is laid out is laid
out the same way again, so **indenting twice is indenting once**
(`reindent_reindent`), also when the last line has got the blanks for the token
behind it in the meantime (`reindent_append_blanks`).
-/

namespace SkinMarkup

/-! ## Blanks and breaks -/

/-- The characters of a text that are not blank. -/
def solid (t : Text) : Text :=
  t.filter fun c => !isBlank c

/-- A character that ends a line. -/
def IsBreak (c : Char) : Prop :=
  c = '\n' ∨ c = '\r'

instance (c : Char) : Decidable (IsBreak c) :=
  inferInstanceAs (Decidable (_ ∨ _))

/-- A text on a single line. -/
def OneLine (t : Text) : Prop :=
  ∀ c ∈ t, ¬ IsBreak c

instance (t : Text) : Decidable (OneLine t) :=
  List.decidableBAll (¬ IsBreak ·) t

/-- A style that indents with spaces and tabs only. -/
def IndentStyle.Plain (style : IndentStyle) : Prop :=
  ∀ c ∈ style.unit, c = ' ' ∨ c = '\t'

instance (style : IndentStyle) : Decidable style.Plain :=
  List.decidableBAll (fun c => c = ' ' ∨ c = '\t') style.unit

section Solid

variable {s t : Text}

theorem solid_append (s t : Text) : solid (s ++ t) = solid s ++ solid t :=
  List.filter_append s t

theorem solid_cons (c : Char) (t : Text) :
    solid (c :: t) = if isBlank c then solid t else c :: solid t := by
  rw [solid, List.filter_cons]
  cases isBlank c <;> rfl

theorem solid_of_blanks (h : Blanks t) : solid t = [] :=
  List.filter_eq_nil_iff.mpr fun c hc => by simp [h c hc]

theorem blanks_takeWhile (t : Text) : Blanks (t.takeWhile isBlank) :=
  fun c hc => List.all_eq_true.mp List.all_takeWhile c hc

theorem takeWhile_append_trimStart (t : Text) : t.takeWhile isBlank ++ trimStart t = t :=
  List.takeWhile_append_dropWhile

theorem solid_trimStart (t : Text) : solid (trimStart t) = solid t := by
  have hsplit := congrArg solid (takeWhile_append_trimStart t)
  rwa [solid_append, solid_of_blanks (blanks_takeWhile t), List.nil_append] at hsplit

theorem solid_trimEnd (t : Text) : solid (trimEnd t) = solid t := by
  obtain ⟨r, ht, hr⟩ := exists_eq_trimEnd t
  have hsplit := congrArg solid ht
  rwa [solid_append, solid_of_blanks hr, List.append_nil, eq_comm] at hsplit

theorem isBlank_of_isBreak {c : Char} (h : IsBreak c) : isBlank c = true := by
  rcases h with rfl | rfl <;> rfl

theorem OneLine.append (hs : OneLine s) (ht : OneLine t) : OneLine (s ++ t) := by
  intro c hc
  rcases List.mem_append.mp hc with hc | hc
  · exact hs c hc
  · exact ht c hc

theorem OneLine.mono (ht : OneLine t) (h : s ⊆ t) : OneLine s :=
  fun c hc => ht c (h hc)

theorem trimStart_subset (t : Text) : trimStart t ⊆ t :=
  (List.dropWhile_sublist isBlank).subset

theorem first_trimStart (t : Text) : ∀ c ∈ (trimStart t).head?, isBlank c = false := by
  intro c hc
  have hfirst := List.head?_dropWhile_not isBlank t
  rw [trimStart] at hc
  rwa [hc] at hfirst

theorem trimStart_of_first (h : ∀ c ∈ t.head?, isBlank c = false) : trimStart t = t := by
  have hnil := trimStart_of_blanks_before blanks_nil h
  rwa [List.nil_append] at hnil

/-- Blanks and a break in front of the last line of a text are read from the end. -/
theorem eq_of_append_break {a b a' b' : Text} {c c' : Char} (hb : OneLine b) (hb' : OneLine b')
    (hc : IsBreak c) (hc' : IsBreak c') (h : a ++ c :: b = a' ++ c' :: b') :
    a = a' ∧ c = c' ∧ b = b' := by
  rcases List.append_eq_append_iff.mp h with ⟨m, rfl, hm⟩ | ⟨m, rfl, hm⟩
  · cases m with
    | nil =>
      obtain ⟨rfl, rfl⟩ := List.cons.inj hm
      exact ⟨(List.append_nil a).symm, rfl, rfl⟩
    | cons d ds =>
      obtain ⟨rfl, rfl⟩ := List.cons.inj hm
      exact absurd hc' (hb c' (List.mem_append_right ds List.mem_cons_self))
  · cases m with
    | nil =>
      obtain ⟨rfl, rfl⟩ := List.cons.inj hm
      exact ⟨List.append_nil a', rfl, rfl⟩
    | cons d ds =>
      obtain ⟨rfl, rfl⟩ := List.cons.inj hm
      exact absurd hc (hb' c (List.mem_append_right ds List.mem_cons_self))

end Solid

/-! ## Dividing a text into lines -/

theorem solid_normalizeBreaks (t : Text) : solid (normalizeBreaks t) = solid t := by
  fun_induction normalizeBreaks t with
  | case1 => rfl
  | case2 cs ih =>
    rw [solid_cons, solid_cons, solid_cons, ih]
    rfl
  | case3 c cs hpair ih =>
    by_cases hc : c = '\r'
    · subst hc
      rw [if_pos rfl, solid_cons, solid_cons, ih]
      rfl
    · rw [if_neg hc, solid_cons, solid_cons, ih]

theorem not_mem_normalizeBreaks (t : Text) : '\r' ∉ normalizeBreaks t := by
  fun_induction normalizeBreaks t with
  | case1 => exact List.not_mem_nil
  | case2 cs ih => exact List.not_mem_cons_of_ne_of_not_mem (by decide) ih
  | case3 c cs hpair ih =>
    apply List.not_mem_cons_of_ne_of_not_mem _ ih
    split
    · decide
    · next hc => exact fun h => hc h.symm

theorem normalizeBreaks_of_not_mem {t : Text} (h : '\r' ∉ t) : normalizeBreaks t = t := by
  fun_induction normalizeBreaks t with
  | case1 => rfl
  | case2 cs ih => exact absurd List.mem_cons_self h
  | case3 c cs hpair ih =>
    rw [List.mem_cons, not_or] at h
    rw [if_neg fun hc => h.1 hc.symm, ih h.2]

theorem joinWith_linesOf (t : Text) : joinWith '\n' (linesOf t) = normalizeBreaks t :=
  joinWith_partsAt '\n' (normalizeBreaks t)

theorem exists_linesOf (t : Text) : ∃ first lines, linesOf t = first :: lines := by
  apply List.exists_cons_of_ne_nil
  rw [linesOf, partsAt_eq_splitOn]
  exact List.splitOn_ne_nil _ _

theorem oneLine_of_mem_linesOf {t line : Text} (h : line ∈ linesOf t) : OneLine line := by
  intro c hc hbreak
  rcases hbreak with rfl | rfl
  · exact not_mem_of_mem_partsAt h hc
  · have hpart : line <:+: joinWith '\n' (linesOf t) := isInfix_joinWith_of_mem h
    rw [joinWith_linesOf] at hpart
    exact not_mem_normalizeBreaks t (hpart.subset hc)

theorem not_mem_joinWith_of_oneLine {lines : List Text} (h : ∀ line ∈ lines, OneLine line) :
    '\r' ∉ joinWith '\n' lines := by
  intro hmem
  rcases mem_joinWith hmem with hc | ⟨line, hline, hc⟩
  · exact absurd hc (by decide)
  · exact h line hline '\r' hc (Or.inr rfl)

/-- **Lines that are put together are divided as they were.** -/
theorem linesOf_joinWith {lines : List Text} (h : ∀ line ∈ lines, OneLine line)
    (hne : lines ≠ []) : linesOf (joinWith '\n' lines) = lines := by
  rw [linesOf, normalizeBreaks_of_not_mem (not_mem_joinWith_of_oneLine h)]
  apply partsAt_joinWith _ hne
  exact fun line hline hc => h line hline '\n' hc (Or.inl rfl)

theorem joinWith_cons (first : Text) (lines : List Text) :
    joinWith '\n' (first :: lines) = first ++ lines.flatMap ('\n' :: ·) := by
  induction lines generalizing first with
  | nil => rw [joinWith_singleton, List.flatMap_nil, List.append_nil]
  | cons second lines ih => rw [joinWith_cons_cons, ih, List.flatMap_cons, List.cons_append]

theorem linesOf_cons {c : Char} (hc : ¬ IsBreak c) {t first : Text} {lines : List Text}
    (h : linesOf t = first :: lines) : linesOf (c :: t) = (c :: first) :: lines := by
  rw [IsBreak, not_or] at hc
  have hnormal : normalizeBreaks (c :: t) = c :: normalizeBreaks t := by
    rw [normalizeBreaks, if_neg hc.2]
    exact fun cs hreturn _ => hc.2 hreturn
  rw [linesOf] at h
  rw [linesOf, hnormal, partsAt, if_neg hc.1, h]

theorem linesOf_feed (t : Text) : linesOf ('\n' :: t) = [] :: linesOf t := by
  have hnormal : normalizeBreaks ('\n' :: t) = '\n' :: normalizeBreaks t := by
    rw [normalizeBreaks, if_neg (by decide)]
    rintro cs ⟨⟩
  rw [linesOf, hnormal, partsAt, if_pos rfl, linesOf]

theorem linesOf_of_oneLine {t : Text} (h : OneLine t) : linesOf t = [t] := by
  induction t with
  | nil => rfl
  | cons c cs ih =>
    obtain ⟨hc, hcs⟩ := List.forall_mem_cons.mp h
    exact linesOf_cons hc (ih hcs)

theorem oneLine_of_linesOf {t first : Text} (h : linesOf t = [first]) : OneLine t := by
  have hjoin := joinWith_linesOf t
  rw [h, joinWith_singleton] at hjoin
  have hline : OneLine (normalizeBreaks t) :=
    hjoin ▸ oneLine_of_mem_linesOf (by rw [h]; exact List.mem_singleton_self first)
  clear h hjoin
  fun_induction normalizeBreaks t with
  | case1 => exact hline
  | case2 cs ih => exact absurd (Or.inl rfl) (hline '\n' List.mem_cons_self)
  | case3 c cs hpair ih =>
    obtain ⟨hc, hcs⟩ := List.forall_mem_cons.mp hline
    refine List.forall_mem_cons.mpr ⟨fun hbreak => hc ?_, ih hcs⟩
    rcases hbreak with rfl | rfl
    · exact Or.inl rfl
    · exact Or.inl rfl

/-! ## Laying out lines -/

namespace IndentStyle

variable {style : IndentStyle} {level : Nat} {keepFirst trimLast : Bool} {t : Text}

theorem mem_levels {count : Nat} {c : Char} (h : c ∈ style.levels count) : c ∈ style.unit := by
  obtain ⟨unit, hunit, hc⟩ := List.mem_flatten.mp h
  rwa [List.eq_of_mem_replicate hunit] at hc

theorem Plain.blanks_levels (h : style.Plain) (count : Nat) : Blanks (style.levels count) := by
  intro c hc
  rcases h c (mem_levels hc) with rfl | rfl <;> rfl

theorem Plain.oneLine_levels (h : style.Plain) (count : Nat) : OneLine (style.levels count) := by
  intro c hc
  rcases h c (mem_levels hc) with rfl | rfl <;> decide

/-- The lines after a first one, as they are laid out at a level. -/
def lay (style : IndentStyle) (level : Nat) (trimLast : Bool) : List Text → List Text
  | [] => []
  | line :: lines =>
    style.indentLine level
        (if trimLast && lines.isEmpty then trimEnd (trimStart line) else trimStart line) ::
      style.lay level trimLast lines

theorem indentLines_eq_flatMap (lines : List Text) :
    style.indentLines level trimLast lines = (style.lay level trimLast lines).flatMap ('\n' :: ·) := by
  induction lines with
  | nil => rfl
  | cons line lines ih => rw [indentLines, lay, List.flatMap_cons, ih]

theorem reindent_eq_joinWith {first : Text} {lines : List Text} (h : linesOf t = first :: lines) :
    style.reindent level true trimLast t = joinWith '\n' (first :: style.lay level trimLast lines) := by
  rw [reindent, h, joinWith_cons, ← indentLines_eq_flatMap]
  rfl

/-! ### No character gets lost -/

theorem Plain.solid_indentLine (h : style.Plain) (line : Text) :
    solid (style.indentLine level line) = solid line := by
  rw [indentLine]
  split
  · next hnil => rw [hnil]
  · rw [solid_append, solid_of_blanks (h.blanks_levels level), List.nil_append]

theorem Plain.solid_indentLines (h : style.Plain) (lines : List Text) :
    solid (style.indentLines level trimLast lines) = solid (lines.flatMap ('\n' :: ·)) := by
  induction lines with
  | nil => rfl
  | cons line lines ih =>
    have hline : solid (if trimLast && lines.isEmpty then trimEnd (trimStart line)
        else trimStart line) = solid line := by
      split
      · rw [solid_trimEnd, solid_trimStart]
      · exact solid_trimStart line
    rw [indentLines, List.flatMap_cons, solid_append, solid_cons, h.solid_indentLine, hline, ih,
      solid_append, solid_cons]

/-- **Indentation moves blanks only.** -/
theorem Plain.solid_reindent (h : style.Plain) (level : Nat) (keepFirst trimLast : Bool)
    (t : Text) : solid (style.reindent level keepFirst trimLast t) = solid t := by
  obtain ⟨first, lines, hlines⟩ := exists_linesOf t
  have hfirst : solid (if keepFirst then first else style.indentLine level (trimStart first)) =
      solid first := by
    split
    · rfl
    · rw [h.solid_indentLine, solid_trimStart]
  calc solid (style.reindent level keepFirst trimLast t)
      = solid first ++ solid (lines.flatMap ('\n' :: ·)) := by
        rw [reindent, hlines]
        dsimp only
        rw [solid_append, hfirst, h.solid_indentLines]
    _ = solid (joinWith '\n' (linesOf t)) := by rw [hlines, joinWith_cons, solid_append]
    _ = solid t := by rw [joinWith_linesOf, solid_normalizeBreaks]

/-! ### Laying out twice -/

theorem Plain.oneLine_indentLine (h : style.Plain) {line : Text} (hline : OneLine line) :
    OneLine (style.indentLine level line) := by
  rw [indentLine]
  split
  · exact fun c hc => absurd hc List.not_mem_nil
  · exact (h.oneLine_levels level).append hline

theorem Plain.oneLine_of_mem_lay (h : style.Plain) {lines : List Text}
    (hlines : ∀ line ∈ lines, OneLine line) :
    ∀ line ∈ style.lay level trimLast lines, OneLine line := by
  induction lines with
  | nil => exact fun line hline => absurd hline List.not_mem_nil
  | cons line lines ih =>
    have hstart : OneLine (trimStart line) :=
      (hlines line List.mem_cons_self).mono (trimStart_subset line)
    rw [lay]
    intro line' hline'
    rcases List.mem_cons.mp hline' with rfl | hline'
    · apply h.oneLine_indentLine
      split
      · exact hstart.mono (trimEnd_subset _)
      · exact hstart
    · exact ih (fun line hline => hlines line (List.mem_cons_of_mem _ hline)) line' hline'

theorem lay_eq_nil_iff (lines : List Text) :
    style.lay level trimLast lines = [] ↔ lines = [] := by
  cases lines <;> simp [lay]

/-- The blanks in front of an indented line are dropped when it is indented again. -/
theorem Plain.trimStart_indentLine (h : style.Plain) {line : Text}
    (hfirst : ∀ c ∈ line.head?, isBlank c = false) :
    trimStart (style.indentLine level line) = line := by
  rw [indentLine]
  split
  · next hnil => rw [hnil]; rfl
  · exact trimStart_of_blanks_before (h.blanks_levels level) hfirst

theorem first_trimEnd {line : Text} (hfirst : ∀ c ∈ line.head?, isBlank c = false) :
    ∀ c ∈ (trimEnd line).head?, isBlank c = false := by
  obtain ⟨r, hline, -⟩ := exists_eq_trimEnd line
  cases hcase : trimEnd line with
  | nil => exact fun c hc => by cases hc
  | cons d ds =>
    rw [hcase] at hline
    rw [hline] at hfirst
    exact hfirst

theorem Plain.lay_lay (h : style.Plain) (level : Nat) (trimLast : Bool) (lines : List Text) :
    style.lay level trimLast (style.lay level trimLast lines) = style.lay level trimLast lines := by
  induction lines with
  | nil => rfl
  | cons line lines ih =>
    have hempty : (style.lay level trimLast lines).isEmpty = lines.isEmpty := by
      rw [Bool.eq_iff_iff, List.isEmpty_iff, List.isEmpty_iff, lay_eq_nil_iff]
    have hfirst := first_trimStart line
    rw [lay, lay, ih, hempty]
    split
    · rw [h.trimStart_indentLine (first_trimEnd hfirst), trimEnd_trimEnd]
    · rw [h.trimStart_indentLine hfirst]

theorem Plain.linesOf_reindent (h : style.Plain) {first : Text} {lines : List Text}
    (hlines : linesOf t = first :: lines) :
    linesOf (style.reindent level true trimLast t) = first :: style.lay level trimLast lines := by
  rw [reindent_eq_joinWith hlines]
  apply linesOf_joinWith _ (List.cons_ne_nil _ _)
  have hline : ∀ line ∈ first :: lines, OneLine line := by
    intro line hmem
    rw [← hlines] at hmem
    exact oneLine_of_mem_linesOf hmem
  intro line hmem
  rcases List.mem_cons.mp hmem with rfl | hmem
  · exact hline line List.mem_cons_self
  · exact h.oneLine_of_mem_lay (fun line hmem => hline line (List.mem_cons_of_mem _ hmem)) line hmem

/-- **Indenting twice is indenting once.** -/
theorem Plain.reindent_reindent (h : style.Plain) (level : Nat) (trimLast : Bool) (t : Text) :
    style.reindent level true trimLast (style.reindent level true trimLast t) =
      style.reindent level true trimLast t := by
  obtain ⟨first, lines, hlines⟩ := exists_linesOf t
  rw [reindent_eq_joinWith (h.linesOf_reindent hlines), h.lay_lay, reindent_eq_joinWith hlines]

/-! ### The gap in front of a token -/

theorem linesOf_append_break {g b : Text} (hg : '\r' ∉ g) (hb : OneLine b) :
    linesOf (g ++ '\n' :: b) = linesOf g ++ [b] := by
  obtain ⟨first, lines, hlines⟩ := exists_linesOf g
  have hjoin : g ++ '\n' :: b = joinWith '\n' (linesOf g ++ [b]) := by
    rw [joinWith_concat (by rw [hlines]; exact List.cons_ne_nil _ _), joinWith_linesOf,
      normalizeBreaks_of_not_mem hg]
  rw [hjoin]
  apply linesOf_joinWith
  · intro line hline
    rcases List.mem_append.mp hline with hline | hline
    · exact oneLine_of_mem_linesOf hline
    · rwa [List.mem_singleton.mp hline]
  · exact List.append_ne_nil_of_right_ne_nil _ (List.cons_ne_nil b [])

theorem Plain.not_mem_reindent (h : style.Plain) (level : Nat) (trimLast : Bool) (t : Text) :
    '\r' ∉ style.reindent level true trimLast t := by
  obtain ⟨first, lines, hlines⟩ := exists_linesOf t
  have hjoin := joinWith_linesOf (style.reindent level true trimLast t)
  rw [h.linesOf_reindent hlines, ← reindent_eq_joinWith hlines] at hjoin
  rw [hjoin]
  exact not_mem_normalizeBreaks _

theorem lay_concat_of_trimEnd {lines : List Text} {b b' : Text}
    (hb : trimEnd (trimStart b) = trimEnd (trimStart b')) :
    style.lay level true (lines ++ [b]) = style.lay level true (lines ++ [b']) := by
  induction lines with
  | nil => simp [lay, hb]
  | cons line lines ih =>
    have hne : ∀ b : Text, (lines ++ [b]).isEmpty = false := fun b => by simp
    rw [List.cons_append, List.cons_append, lay, lay, ih, hne, hne]

/-- **Blanks behind the last break of a gap are written anew.** -/
theorem reindent_append_blanks {g b : Text} (hb : Blanks b) (hline : OneLine b)
    (hg : '\r' ∉ g) :
    style.reindent level true true (g ++ '\n' :: b) =
      style.reindent level true true (g ++ ['\n']) := by
  obtain ⟨first, lines, hlines⟩ := exists_linesOf g
  have hnil : OneLine [] := fun c hc => absurd hc List.not_mem_nil
  have hwith := linesOf_append_break hg hline
  have hwithout := linesOf_append_break hg hnil
  rw [hlines, List.cons_append] at hwith hwithout
  have htrim : trimEnd (trimStart b) = trimEnd (trimStart []) := by
    have := trim_eq_nil_iff.mpr hb
    rwa [trim] at this
  rw [reindent_eq_joinWith hwith, reindent_eq_joinWith hwithout, lay_concat_of_trimEnd htrim]

theorem last_indentLine {line : Text} (hlast : ∀ c ∈ line.getLast?, isBlank c = false) :
    ∀ c ∈ (style.indentLine level line).getLast?, isBlank c = false := by
  rw [indentLine]
  split
  · exact fun c hc => by cases hc
  · next hne =>
    intro c hc
    rw [List.getLast?_append_of_ne_nil _ hne] at hc
    exact hlast c hc

theorem last_lay {lines rest : List Text} {last : Text}
    (h : style.lay level true lines = rest ++ [last]) : ∀ c ∈ last.getLast?, isBlank c = false := by
  induction lines generalizing rest with
  | nil => simp [lay] at h
  | cons line lines ih =>
    rw [lay] at h
    cases rest with
    | nil =>
      obtain ⟨rfl, hnil⟩ := List.cons.inj h
      rw [(lay_eq_nil_iff lines).mp hnil]
      exact last_indentLine (last_trimEnd _)
    | cons other rest => exact ih (List.cons.inj h).2

/-- **An indented gap that ends in blanks on a line of their own ends in a break.** -/
theorem Plain.eq_nil_of_reindent (h : style.Plain) {x b : Text} {c : Char} (hc : IsBreak c)
    (hb : Blanks b) (hline : OneLine b)
    (heq : style.reindent level true true t = x ++ c :: b) : c = '\n' ∧ b = [] := by
  have hreturn := h.not_mem_reindent level true t
  rw [heq, List.mem_append, List.mem_cons, not_or, not_or] at hreturn
  obtain rfl : c = '\n' := hc.resolve_right fun hc => hreturn.2.1 hc.symm
  obtain ⟨first, lines, hlines⟩ := exists_linesOf t
  obtain ⟨first', lines', hlines'⟩ := exists_linesOf x
  have hsplit : first :: style.lay level true lines = first' :: (lines' ++ [b]) := by
    rw [← h.linesOf_reindent hlines, heq, linesOf_append_break hreturn.1 hline, hlines',
      List.cons_append]
  refine ⟨rfl, List.eq_nil_iff_forall_not_mem.mpr fun d hd => ?_⟩
  have hne : b ≠ [] := List.ne_nil_of_mem hd
  have hlast := last_lay (List.cons.inj hsplit).2 _ (List.getLast?_eq_some_getLast hne)
  rw [hb _ (List.getLast_mem hne)] at hlast
  cases hlast

/-! ### A token behind a gap -/

/-- Where a token is moved, its level is written in front of it. -/
theorem reindent_cons_false {c : Char} (hc : isBlank c = false) (level : Nat) (trimLast : Bool)
    (t : Text) :
    style.reindent level false trimLast (c :: t) =
      style.levels level ++ style.reindent level true trimLast (c :: t) := by
  obtain ⟨first, lines, hlines⟩ := exists_linesOf t
  have hbreak : ¬ IsBreak c := fun h => by rw [isBlank_of_isBreak h] at hc; cases hc
  have hstart : trimStart (c :: first) = c :: first :=
    trimStart_of_first fun d hd => by cases hd; exact hc
  rw [reindent, reindent, linesOf_cons hbreak hlines]
  dsimp only
  rw [hstart, indentLine, if_neg (List.cons_ne_nil c first), if_neg Bool.false_ne_true,
    if_pos rfl, List.append_assoc]

end IndentStyle

end SkinMarkup
