import Mathlib.Data.List.Chain
import Mathlib.Data.List.Flatten
import SkinMarkup.Proofs.State.Lists

/-!
# Texts with names in them

A template is a text with holes, and `fill` puts names of states into the holes.
Every text is a filled template in which the holes are the plain names that
stand right behind a quote, a comma or a dot (`exists_template`). Functions that
cut a text at other characters cut a filled template at the same symbols
whatever the names are: `takeWhile_fill`, `trim_fill`, `cutAt_fill`,
`cutAtWord_fill` and `exists_parts`.
-/

namespace SkinMarkup

/-- A plain name of a state. -/
abbrev StateName := { name : Text // isStateName name = true }

/-- A character of a text, or a place for a name. -/
inductive TemplateSymbol where
  | char (c : Char)
  | hole (i : Nat)
deriving DecidableEq

abbrev Template := List TemplateSymbol

/-- A name for every hole. -/
abbrev Names := Nat → StateName

namespace StateName

theorem ne_nil (name : StateName) : name.val ≠ [] :=
  ne_nil_of_isStateName name.property

theorem isStateChar (name : StateName) {c : Char} (h : c ∈ name.val) :
    isStateChar c = true :=
  isStateChar_of_mem name.property h

theorem not_mem (name : StateName) {c : Char} (h : SkinMarkup.isStateChar c = false) :
    c ∉ name.val :=
  not_mem_of_isStateName name.property h

/-- The name read from its end. -/
def reverse (name : StateName) : StateName :=
  ⟨name.val.reverse, by simpa [isStateName] using name.property⟩

theorem reverse_reverse (name : StateName) : name.reverse.reverse = name :=
  Subtype.ext (List.reverse_reverse name.val)

end StateName

/-- A character behind which a name of a state may start. -/
def isSign (c : Char) : Bool :=
  c == '"' || c == '\'' || c == ',' || c == '.'

theorem isStateChar_of_isSign {c : Char} (h : isSign c = true) : isStateChar c = false := by
  simp only [isSign, Bool.or_eq_true, beq_iff_eq] at h
  rcases h with ((rfl | rfl) | rfl) | rfl <;> rfl

namespace TemplateSymbol

def fill (names : Names) : TemplateSymbol → Text
  | char c => [c]
  | hole i => (names i).val

/-- Whether two symbols may stand next to each other: a hole starts right behind
a sign and nowhere else, takes the whole name that stands there, and leaves no
name behind a sign to the characters. -/
def Joint : TemplateSymbol → TemplateSymbol → Prop
  | char c, char d => isSign c = true → isStateChar d = false
  | char c, hole _ => isSign c = true
  | hole _, char d => isStateChar d = false
  | hole _, hole _ => False

/-- What a test of characters says about a symbol, if it says the same about all
characters of a name. -/
def lift (p : Char → Bool) : TemplateSymbol → Bool
  | char c => p c
  | hole _ => p 'a'

theorem fill_ne_nil (names : Names) (x : TemplateSymbol) : x.fill names ≠ [] := by
  cases x with
  | char c => exact List.cons_ne_nil c []
  | hole i => exact (names i).ne_nil

end TemplateSymbol

/-- A test that does not tell the characters of a name apart. -/
def Level (p : Char → Bool) : Prop :=
  ∀ c, isStateChar c = true → p c = p 'a'

namespace Template

open TemplateSymbol

/-- The text with names in the holes. -/
def fill (names : Names) (s : Template) : Text :=
  s.flatMap (TemplateSymbol.fill names)

def holes (s : Template) : List Nat :=
  s.filterMap fun
    | char _ => none
    | hole i => some i

/-- A template whose symbols may stand as they do. -/
def Jointed (s : Template) : Prop :=
  s.IsChain Joint

/-- A template that may stand right behind a sign. -/
def Opened (s : Template) : Prop :=
  Jointed (char ',' :: s)

variable {names names' : Names} {s u v : Template} {c sep : Char} {p : Char → Bool}

@[simp]
theorem fill_nil : fill names [] = [] := rfl

@[simp]
theorem fill_char_cons : fill names (char c :: s) = c :: fill names s := rfl

@[simp]
theorem fill_hole_cons {i : Nat} : fill names (hole i :: s) = (names i).val ++ fill names s := rfl

@[simp]
theorem fill_append : fill names (u ++ v) = fill names u ++ fill names v :=
  List.flatMap_append

@[simp]
theorem fill_map_char (t : Text) : fill names (t.map char) = t := by
  induction t with
  | nil => rfl
  | cons c cs ih => rw [List.map_cons, fill_char_cons, ih]

@[simp]
theorem holes_nil : holes [] = [] := rfl

@[simp]
theorem holes_char_cons : holes (char c :: s) = holes s := rfl

@[simp]
theorem holes_hole_cons {i : Nat} : holes (hole i :: s) = i :: holes s := rfl

@[simp]
theorem holes_append : holes (u ++ v) = holes u ++ holes v :=
  List.filterMap_append

theorem mem_holes {i : Nat} : i ∈ holes s ↔ hole i ∈ s := by
  rw [holes, List.mem_filterMap]
  constructor
  · rintro ⟨x, hx, h⟩
    cases x with
    | char c => cases h
    | hole j =>
      cases h
      exact hx
  · intro h
    exact ⟨hole i, h, rfl⟩

/-- Only the names of a template's holes are in the text. -/
theorem fill_congr (h : ∀ i ∈ holes s, names i = names' i) : fill names s = fill names' s := by
  induction s with
  | nil => rfl
  | cons x xs ih =>
    cases x with
    | char c => rw [fill_char_cons, fill_char_cons, ih h]
    | hole i =>
      rw [holes_hole_cons] at h
      rw [fill_hole_cons, fill_hole_cons, h i List.mem_cons_self,
        ih fun j hj => h j (List.mem_cons_of_mem i hj)]

/-- The names have none of the characters that are no part of a name. -/
theorem mem_fill (hc : isStateChar c = false) : c ∈ fill names s ↔ char c ∈ s := by
  rw [fill, List.mem_flatMap]
  constructor
  · rintro ⟨x, hx, hmem⟩
    cases x with
    | char d => exact List.mem_singleton.mp hmem ▸ hx
    | hole i => exact absurd hmem ((names i).not_mem hc)
  · intro h
    exact ⟨char c, h, List.mem_singleton_self c⟩

theorem fill_eq_nil_iff : fill names s = [] ↔ s = [] := by
  constructor
  · intro h
    cases s with
    | nil => rfl
    | cons x xs =>
      rw [fill, List.flatMap_cons, List.append_eq_nil_iff] at h
      exact absurd h.1 (x.fill_ne_nil names)
  · rintro rfl
    rfl

/-- Nothing of a template can be left out without a change of the text. -/
theorem eq_of_sublist (h : u.Sublist v) (hfill : fill names u = fill names v) : u = v := by
  induction h with
  | slnil => rfl
  | @cons u v x hsub ih =>
    have hle : (fill names u).length ≤ (fill names v).length :=
      (hsub.flatMap (TemplateSymbol.fill names)).length_le
    have hpos := List.length_pos_iff.mpr (x.fill_ne_nil names)
    have hlength := congrArg List.length hfill
    rw [fill, fill, List.flatMap_cons, List.length_append] at hlength
    rw [fill, fill] at hle
    omega
  | @cons_cons u v x hsub ih =>
    rw [fill, fill, List.flatMap_cons, List.flatMap_cons] at hfill
    rw [ih (List.append_cancel_left hfill)]

/-! ## Every text is a filled template -/

theorem Opened.jointed (h : Opened s) : Jointed s :=
  h.tail

theorem opened_of_isSign (hc : isSign c = true) (h : Jointed (char c :: s)) : Opened s := by
  refine h.imp_head fun {x} hx => ?_
  cases x with
  | char d => exact fun _ => hx hc
  | hole i => rfl

/-- What is left of a text, `t`, is the template `s` filled with `names`, with holes
from `n` on. The character `previous` stands before it. -/
structure FilledBehind (default : StateName) (previous : Char) (n : Nat) (t : Text) (s : Template)
    (names : Names) : Prop where
  fill : Template.fill names s = t
  jointed : Jointed (TemplateSymbol.char previous :: s)
  nodup : (holes s).Nodup
  le : ∀ i ∈ holes s, n ≤ i
  names : ∀ i, names i = default ∨ (names i).val <:+: t

namespace FilledBehind

variable {default : StateName} {previous c : Char} {n : Nat} {t rest : Text} {names : Names}

theorem nil (default : StateName) (previous : Char) (n : Nat) :
    FilledBehind default previous n [] [] fun _ => default where
  fill := rfl
  jointed := List.isChain_singleton _
  nodup := List.nodup_nil
  le := by simp
  names := fun _ => Or.inl rfl

/-- A character that starts no name stands for itself. -/
theorem char (h : FilledBehind default c n t s names)
    (hname : ¬ (isSign previous = true ∧ isStateChar c = true)) :
    FilledBehind default previous n (c :: t) (TemplateSymbol.char c :: s) names where
  fill := by rw [fill_char_cons, h.fill]
  jointed := by
    refine List.isChain_cons.mpr ⟨?_, h.jointed⟩
    rintro x ⟨⟩
    exact fun hsign => Bool.eq_false_iff.mpr fun hc => hname ⟨hsign, hc⟩
  nodup := h.nodup
  le := h.le
  names := fun i => (h.names i).imp_right fun h => h.trans (List.suffix_cons c t).isInfix

/-- A name behind a sign fills the next hole, if it does not go on behind it. -/
theorem hole (h : FilledBehind default 'a' (n + 1) rest s names) (hsign : isSign previous = true)
    (name : StateName) (hend : ∀ c ∈ rest.head?, isStateChar c = false) :
    FilledBehind default previous n (name.val ++ rest) (TemplateSymbol.hole n :: s)
      (Function.update names n name) where
  fill := by
    have hkeep : ∀ i ∈ holes s, Function.update names n name i = names i :=
      fun i hi => Function.update_of_ne (by have := h.le i hi; omega) _ _
    rw [fill_hole_cons, fill_congr hkeep, h.fill, Function.update_self]
  jointed := by
    refine List.isChain_cons.mpr ⟨?_, List.isChain_cons.mpr ⟨?_, h.jointed.tail⟩⟩
    · rintro x ⟨⟩
      exact hsign
    · intro x hx
      obtain ⟨xs, rfl⟩ : ∃ xs, s = x :: xs := List.head?_eq_some_iff.mp hx
      have hfirst := h.jointed.rel_head? hx
      cases x with
      | char d =>
        rw [← h.fill] at hend
        exact hend d rfl
      | hole i => cases hfirst
  nodup := by
    rw [holes_hole_cons, List.nodup_cons]
    refine ⟨fun hmem => ?_, h.nodup⟩
    have := h.le n hmem
    omega
  le := by
    intro i hi
    rw [holes_hole_cons] at hi
    rcases List.mem_cons.mp hi with rfl | hi
    · exact le_rfl
    · have := h.le i hi
      omega
  names := by
    intro i
    by_cases hi : i = n
    · subst hi
      rw [Function.update_self]
      exact Or.inr ⟨[], rest, rfl⟩
    · rw [Function.update_of_ne hi]
      exact (h.names i).imp_right fun h => h.trans (List.suffix_append name.val rest).isInfix

end FilledBehind

/-- What is left of a text is a filled template too. -/
theorem exists_filledBehind (default : StateName) (previous : Char) (n : Nat) (t : Text) :
    ∃ s names, FilledBehind default previous n t s names := by
  induction hlength : t.length using Nat.strong_induction_on generalizing previous n t with
  | _ length ih =>
    subst hlength
    cases t with
    | nil => exact ⟨[], _, .nil default previous n⟩
    | cons c cs =>
      by_cases hname : isSign previous = true ∧ isStateChar c = true
      · -- A name starts here: it fills the hole `n`.
        have hsplit : (c :: cs).takeWhile isStateChar ++ (c :: cs).dropWhile isStateChar = c :: cs :=
          List.takeWhile_append_dropWhile
        have hne : (c :: cs).takeWhile isStateChar ≠ [] := by
          rw [List.takeWhile_cons_of_pos hname.2]
          exact List.cons_ne_nil _ _
        have hplain : isStateName ((c :: cs).takeWhile isStateChar) = true := by
          rw [isStateName, Bool.and_eq_true]
          exact ⟨by simpa using hne, List.all_takeWhile⟩
        have hshort : ((c :: cs).dropWhile isStateChar).length < (c :: cs).length := by
          have := List.length_pos_iff.mpr hne
          rw [← congrArg List.length hsplit, List.length_append]
          omega
        have hend : ∀ d ∈ ((c :: cs).dropWhile isStateChar).head?, isStateChar d = false := by
          intro d hd
          have hnot := List.head?_dropWhile_not isStateChar (c :: cs)
          rw [Option.mem_def.mp hd] at hnot
          exact hnot
        obtain ⟨s, names, h⟩ := ih _ hshort 'a' (n + 1) _ rfl
        have hhole := h.hole hname.1 ⟨_, hplain⟩ hend
        rw [hsplit] at hhole
        exact ⟨_, _, hhole⟩
      · obtain ⟨s, names, h⟩ := ih cs.length (Nat.lt_succ_self _) c n cs rfl
        exact ⟨_, names, h.char hname⟩

/-- **Every text is a filled template**, and a name that is not in the text need
not be used. -/
theorem exists_template (default : StateName) (t : Text) :
    ∃ s names, fill names s = t ∧ Jointed s ∧ (holes s).Nodup ∧
      ∀ i, names i = default ∨ (names i).val <:+: t := by
  obtain ⟨s, names, h⟩ := exists_filledBehind default ' ' 0 t
  exact ⟨s, names, h.fill, h.jointed.tail, h.nodup, h.names⟩

/-! ## Runs of characters -/

theorem takeWhile_fill (hp : Level p) :
    (fill names s).takeWhile p = fill names (s.takeWhile (lift p)) := by
  induction s with
  | nil => rfl
  | cons x xs ih =>
    cases x with
    | char c =>
      by_cases hc : p c = true
      · rw [fill_char_cons, List.takeWhile_cons_of_pos hc,
          List.takeWhile_cons_of_pos (p := lift p) (a := char c) hc, fill_char_cons, ih]
      · rw [fill_char_cons, List.takeWhile_cons_of_neg hc,
          List.takeWhile_cons_of_neg (p := lift p) (a := char c) hc, fill_nil]
    | hole i =>
      by_cases ha : p 'a' = true
      · rw [fill_hole_cons, List.takeWhile_append_of_pos, ih,
          List.takeWhile_cons_of_pos (p := lift p) (a := hole i) ha, fill_hole_cons]
        exact fun c hc => (hp c ((names i).isStateChar hc)).trans ha
      · obtain ⟨c, cs, hname⟩ := List.exists_cons_of_ne_nil (names i).ne_nil
        have hc : ¬ p c = true := by
          rw [hp c ((names i).isStateChar (hname ▸ List.mem_cons_self))]
          exact ha
        rw [fill_hole_cons, hname, List.cons_append, List.takeWhile_cons_of_neg hc,
          List.takeWhile_cons_of_neg (p := lift p) (a := hole i) ha, fill_nil]

theorem dropWhile_fill (hp : Level p) :
    (fill names s).dropWhile p = fill names (s.dropWhile (lift p)) := by
  have htake : fill names s = fill names (s.takeWhile (lift p)) ++
      fill names (s.dropWhile (lift p)) := by
    rw [← fill_append, List.takeWhile_append_dropWhile]
  have hsplit := List.takeWhile_append_dropWhile (p := p) (l := fill names s)
  rw [takeWhile_fill hp] at hsplit
  exact List.append_cancel_left (hsplit.trans htake)

theorem reverse_fill : (fill names s).reverse = fill (fun i => (names i).reverse) s.reverse := by
  induction s with
  | nil => rfl
  | cons x xs ih =>
    cases x with
    | char c => simp [ih]
    | hole i => simp [ih, StateName.reverse]

/-- A template without the symbols at its end that pass a test. -/
def dropEndWhile (p : Char → Bool) (s : Template) : Template :=
  (s.reverse.dropWhile (lift p)).reverse

/-- The symbols at the end of a template that pass a test. -/
def takeEndWhile (p : Char → Bool) (s : Template) : Template :=
  (s.reverse.takeWhile (lift p)).reverse

theorem dropEndWhile_append_takeEndWhile (p : Char → Bool) (s : Template) :
    dropEndWhile p s ++ takeEndWhile p s = s := by
  rw [dropEndWhile, takeEndWhile, ← List.reverse_append, List.takeWhile_append_dropWhile,
    List.reverse_reverse]

theorem dropEndWhile_fill (hp : Level p) :
    SkinMarkup.dropEndWhile p (fill names s) = fill names (dropEndWhile p s) := by
  rw [SkinMarkup.dropEndWhile, reverse_fill, dropWhile_fill hp, reverse_fill, dropEndWhile]
  simp only [StateName.reverse_reverse]

theorem takeEndWhile_fill (hp : Level p) :
    SkinMarkup.takeEndWhile p (fill names s) = fill names (takeEndWhile p s) := by
  rw [SkinMarkup.takeEndWhile, reverse_fill, takeWhile_fill hp, reverse_fill, takeEndWhile]
  simp only [StateName.reverse_reverse]

theorem level_isBlank : Level isBlank := by
  intro c hc
  rw [isBlank_of_isStateChar hc]
  rfl

/-- A template without the blanks at either end. -/
def trim (s : Template) : Template :=
  dropEndWhile isBlank (s.dropWhile (lift isBlank))

theorem trim_fill : SkinMarkup.trim (fill names s) = fill names (trim s) := by
  rw [SkinMarkup.trim, trimEnd, trimStart, dropWhile_fill level_isBlank,
    dropEndWhile_fill level_isBlank, trim]

theorem trim_isInfix (s : Template) : trim s <:+: s := by
  have hstart : s.dropWhile (lift isBlank) <:+ s := List.dropWhile_suffix _
  have hend : trim s <+: s.dropWhile (lift isBlank) :=
    ⟨_, dropEndWhile_append_takeEndWhile isBlank _⟩
  exact hend.isInfix.trans hstart.isInfix

/-! ## Cuts -/

theorem cutAt_fill (hsep : isStateChar sep = false) (s : Template) :
    (∀ names, cutAt sep (fill names s) = none) ∨
      ∃ u v, s = u ++ char sep :: v ∧
        ∀ names, cutAt sep (fill names s) = some (fill names u, fill names v) := by
  by_cases hmem : char sep ∈ s
  · obtain ⟨u, v, rfl, hu⟩ := List.eq_append_cons_of_mem hmem
    refine Or.inr ⟨u, v, rfl, fun names => ?_⟩
    rw [fill_append, fill_char_cons, cutAt_append (mt (mem_fill hsep).mp hu)]
  · exact Or.inl fun names => cutAt_eq_none_iff.mpr (mt (mem_fill hsep).mp hmem)

theorem exists_last_of_mem {x : TemplateSymbol} (h : x ∈ s) :
    ∃ u v : Template, s = u ++ x :: v ∧ x ∉ v := by
  obtain ⟨v, u, hsplit, hv⟩ := List.eq_append_cons_of_mem (List.mem_reverse.mpr h)
  refine ⟨u.reverse, v.reverse, ?_, by simpa using hv⟩
  rw [← List.reverse_reverse s, hsplit]
  simp

theorem cutAtLast_fill (hsep : isStateChar sep = false) (s : Template) :
    (∀ names, cutAtLast sep (fill names s) = none) ∨
      ∃ u v, s = u ++ char sep :: v ∧
        ∀ names, cutAtLast sep (fill names s) = some (fill names u, fill names v) := by
  by_cases hmem : char sep ∈ s
  · obtain ⟨u, v, rfl, hv⟩ := exists_last_of_mem hmem
    refine Or.inr ⟨u, v, rfl, fun names => ?_⟩
    rw [fill_append, fill_char_cons, cutAtLast_append (mt (mem_fill hsep).mp hv)]
  · refine Or.inl fun names => ?_
    rw [cutAtLast, cutAt_eq_none_iff.mpr]
    · rfl
    · rw [List.mem_reverse]
      exact mt (mem_fill hsep).mp hmem

/-- A word without signs before its end has no name in it where it stands
behind a character that is no sign. -/
theorem map_char_starts {word : Text} {previous : Char} (hword : ∀ c ∈ word.dropLast, isSign c = false)
    (hprevious : isSign previous = false) (hs : Jointed (char previous :: s))
    (h : word <+: fill names s) : word.map char <+: s := by
  induction word generalizing previous s with
  | nil => exact List.nil_prefix
  | cons w ws ih =>
    cases s with
    | nil => exact absurd (List.prefix_nil.mp h) (List.cons_ne_nil w ws)
    | cons x xs =>
      cases x with
      | hole i =>
        have hsign : isSign previous = true := hs.rel_head? rfl
        cases hsign.symm.trans hprevious
      | char c =>
        obtain ⟨rfl, hws⟩ := List.cons_prefix_cons.mp h
        rw [List.map_cons, List.cons_prefix_cons]
        refine ⟨rfl, ?_⟩
        cases ws with
        | nil => exact List.nil_prefix
        | cons w' ws =>
          have hw : isSign w = false := hword w (by simp)
          exact ih (fun c hc => hword c (by simp [hc])) hw hs.tail hws

/-- A word to search for, which starts with a space and has signs only at its
end. -/
structure Spelled (word : Text) : Prop where
  starts : word.head? = some ' '
  signs : ∀ c ∈ word.dropLast, isSign c = false

theorem Spelled.map_char_starts {word : Text} (hword : Spelled word) (hs : Jointed (char c :: s))
    (h : word <+: c :: fill names s) : word.map char <+: char c :: s := by
  obtain ⟨ws, rfl⟩ := List.head?_eq_some_iff.mp hword.starts
  obtain ⟨rfl, hws⟩ := List.cons_prefix_cons.mp h
  rw [List.map_cons, List.cons_prefix_cons]
  refine ⟨rfl, ?_⟩
  cases ws with
  | nil => exact List.nil_prefix
  | cons w ws =>
    exact Template.map_char_starts (fun c hc => hword.signs c (by simp [hc])) rfl hs hws

/-- **A word is found at the same symbols, whatever the names are.** -/
theorem cutAtWord_fill {word : Text} (hword : Spelled word) (hs : Jointed s) :
    (∀ names, cutAtWord word (fill names s) = none) ∨
      ∃ u v, s = u ++ (word.map char ++ v) ∧
        ∀ names, cutAtWord word (fill names s) = some (fill names u, fill names v) := by
  obtain ⟨ws, rfl⟩ := List.head?_eq_some_iff.mp hword.starts
  induction s with
  | nil => exact Or.inl fun names => rfl
  | cons x xs ih =>
    cases x with
    | hole i =>
      have hskip : ∀ names : Names, cutAtWord (' ' :: ws) (fill names (hole i :: xs)) =
          (cutAtWord (' ' :: ws) (fill names xs)).map fun p => ((names i).val ++ p.1, p.2) :=
        fun names => cutAtWord_append_of_not_mem ((names i).not_mem rfl)
      rcases ih hs.tail with hnone | ⟨u, v, rfl, hsome⟩
      · exact Or.inl fun names => by rw [hskip, hnone]; rfl
      · exact Or.inr ⟨hole i :: u, v, rfl, fun names => by rw [hskip, hsome]; rfl⟩
    | char c =>
      by_cases hstarts : (' ' :: ws).map char <+: char c :: xs
      · obtain ⟨v, hv⟩ := hstarts
        refine Or.inr ⟨[], v, by rw [List.nil_append, hv], fun names => ?_⟩
        rw [← hv, fill_append, fill_map_char, cutAtWord_of_append _ _ (List.cons_ne_nil _ _)]
        rfl
      · have hskip : ∀ names : Names, cutAtWord (' ' :: ws) (fill names (char c :: xs)) =
            (cutAtWord (' ' :: ws) (fill names xs)).map fun p => (c :: p.1, p.2) :=
          fun names => cutAtWord_cons_of_not_starts fun h => hstarts (hword.map_char_starts hs h)
        rcases ih hs.tail with hnone | ⟨u, v, rfl, hsome⟩
        · exact Or.inl fun names => by rw [hskip, hnone]; rfl
        · exact Or.inr ⟨char c :: u, v, rfl, fun names => by rw [hskip, hsome]; rfl⟩

/-! ## Parts -/

theorem fill_intercalate (parts : List Template) :
    fill names ([char sep].intercalate parts) = joinWith sep (parts.map (fill names)) := by
  induction parts with
  | nil => rfl
  | cons first others ih =>
    cases others with
    | nil => simp [joinWith]
    | cons second others =>
      rw [List.intercalate_cons_cons, List.map_cons, List.map_cons, joinWith_cons_cons,
        ← List.map_cons, ← ih]
      simp

/-- The parts of a template between the occurrences of a sign. -/
theorem exists_parts (hsep : isSign sep = true) (hs : Opened s) :
    ∃ parts, parts ≠ [] ∧ s = [char sep].intercalate parts ∧
      ∀ part ∈ parts, char sep ∉ part ∧ Opened part := by
  induction hlength : s.length using Nat.strong_induction_on generalizing s with
  | _ length ih =>
    subst hlength
    by_cases hmem : char sep ∈ s
    · obtain ⟨u, v, rfl, hu⟩ := List.eq_append_cons_of_mem hmem
      have hv : Opened v := opened_of_isSign hsep (List.IsChain.right_of_append hs.jointed)
      obtain ⟨parts, hne, rfl, hparts⟩ := ih v.length (by simp; omega) hv rfl
      obtain ⟨first, others, rfl⟩ := List.exists_cons_of_ne_nil hne
      refine ⟨u :: first :: others, List.cons_ne_nil _ _, ?_, ?_⟩
      · rw [List.intercalate_cons_cons]
        simp
      · intro part hpart
        rcases List.mem_cons.mp hpart with rfl | hpart
        · have hfirst : Jointed ((char ',' :: part) ++ char sep :: [char sep].intercalate (first :: others)) := hs
          exact ⟨hu, List.IsChain.left_of_append hfirst⟩
        · exact hparts part hpart
    · exact ⟨[s], List.cons_ne_nil _ _, by simp, by simpa using ⟨hmem, hs⟩⟩

/-- **A filled template is divided into its filled parts.** -/
theorem partsAt_fill (hsep : isSign sep = true) {parts : List Template} (hne : parts ≠ [])
    (hs : s = [char sep].intercalate parts) (hparts : ∀ part ∈ parts, char sep ∉ part) :
    partsAt sep (fill names s) = parts.map (fill names) := by
  rw [hs, fill_intercalate, partsAt_joinWith]
  · intro text htext
    obtain ⟨part, hpart, rfl⟩ := List.mem_map.mp htext
    exact mt (mem_fill (isStateChar_of_isSign hsep)).mp (hparts part hpart)
  · simpa using hne

end Template

end SkinMarkup
