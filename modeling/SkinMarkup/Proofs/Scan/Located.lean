import SkinMarkup.Proofs.Scan.Root

/-!
# Revisions that keep the segments of a text

`Segment.located` says of each token of a scan which elements it belongs to. A
revision that erases nothing gives some tokens another text and copies the rest
(`Segment.exists_revised`): what is true of each token that it replaces, given the
elements around the token, is true of the whole run. If all of them are tokens of the
same kind, the outcome is scanned into the same segments (`segments_scan_recut`).
-/

namespace SkinMarkup

namespace Segment

/-! ## The elements around a token -/

/-- The names of the elements that are open behind a token, innermost first. -/
def openAfter (opened : List Text) (token : Token) : List Text :=
  match token.kind with
  | .opening => token.name :: opened
  | .closing => opened.drop 1
  | _ => opened

/-- The names of the elements that a token belongs to, innermost first. A start tag
belongs to the element that it starts. -/
def around (opened : List Text) (token : Token) : List Text :=
  if token.isStart then token.name :: opened else opened

/-- Segments with the names of the elements that their tokens belong to. -/
def located (opened : List Text) : List Segment → List (List Text × Segment)
  | [] => []
  | s :: rest => (around opened s.token, s) :: located (openAfter opened s.token) rest

/-- The names of the elements that are open behind segments. -/
def openBehind (opened : List Text) (segments : List Segment) : List Text :=
  segments.foldl (fun opened s => openAfter opened s.token) opened

variable {opened : List Text} {segments : List Segment} {s : Segment} {token : Token}

theorem openAfter_of_opening (h : token.kind = .opening) :
    openAfter opened token = token.name :: opened := by
  rw [openAfter, h]

theorem openAfter_of_closing (h : token.kind = .closing) :
    openAfter opened token = opened.drop 1 := by
  rw [openAfter, h]

theorem openAfter_of_other (hopening : token.kind ≠ .opening)
    (hclosing : token.kind ≠ .closing) :
    openAfter opened token = opened := by
  rw [openAfter]
  split
  · next h => exact absurd h hopening
  · next h => exact absurd h hclosing
  · rfl

theorem openAfter_subset (opened : List Text) (token : Token) :
    openAfter opened token ⊆ token.name :: opened := by
  rw [openAfter]
  split
  · exact List.Subset.refl _
  · exact fun name hname => List.mem_cons_of_mem _ (List.mem_of_mem_drop hname)
  · exact List.subset_cons_self _ _

theorem openAfter_subset_of_not_isStart (h : token.isStart = false)
    (opened : List Text) : openAfter opened token ⊆ opened := by
  rw [openAfter]
  split
  · next hkind =>
    rw [Token.isStart, hkind] at h
    cases h
  · exact List.drop_subset _ _
  · exact List.Subset.refl _

theorem map_snd_located (opened : List Text) (segments : List Segment) :
    (located opened segments).map Prod.snd = segments := by
  induction segments generalizing opened with
  | nil => rfl
  | cons s rest ih => rw [located, List.map_cons, ih]

theorem mem_of_mem_located {p : List Text × Segment} (h : p ∈ located opened segments) :
    p.2 ∈ segments := by
  rw [← map_snd_located opened segments]
  exact List.mem_map_of_mem h

/-- A start tag belongs to its element first of all. -/
theorem cons_tail_of_mem_located {p : List Text × Segment} (h : p ∈ located opened segments)
    (hstart : p.2.token.isStart = true) : p.1 = p.2.token.name :: p.1.tail := by
  induction segments generalizing opened with
  | nil => cases h
  | cons s rest ih =>
    rcases List.mem_cons.mp h with rfl | h
    · rw [around, if_pos hstart, List.tail_cons]
    · exact ih h

theorem located_append (first second : List Segment) :
    located opened (first ++ second) =
      located opened first ++ located (openBehind opened first) second := by
  induction first generalizing opened with
  | nil => rfl
  | cons s rest ih =>
    rw [List.cons_append, located, located, ih]
    rfl

/-- Behind an element the same elements are open as before it. -/
theorem openBehind_of_splitElement {depth : Nat} {inside after : List Segment}
    (h : Scan.splitElement depth segments = some (inside, after)) (stack : List Text)
    (hstack : stack.length = depth + 1) : openBehind (stack ++ opened) inside = opened := by
  induction segments generalizing depth stack inside with
  | nil => cases h
  | cons s rest ih =>
    by_cases hopening : s.token.kind = .opening
    · rw [Scan.splitElement_opening hopening] at h
      obtain ⟨⟨a, b⟩, hab, heq⟩ := Option.map_eq_some_iff.mp h
      cases heq
      rw [openBehind, List.foldl_cons, openAfter_of_opening hopening]
      exact ih hab (s.token.name :: stack) (by simp [hstack])
    · by_cases hclosing : s.token.kind = .closing
      · cases depth with
        | zero =>
          rw [Scan.splitElement_closing_zero hclosing] at h
          cases h
          obtain ⟨name, rfl⟩ := List.length_eq_one_iff.mp hstack
          rw [openBehind, List.foldl_cons, openAfter_of_closing hclosing]
          rfl
        | succ depth =>
          rw [Scan.splitElement_closing hclosing] at h
          obtain ⟨⟨a, b⟩, hab, heq⟩ := Option.map_eq_some_iff.mp h
          cases heq
          obtain ⟨name, stack, rfl⟩ := List.exists_cons_of_length_eq_add_one hstack
          rw [openBehind, List.foldl_cons, openAfter_of_closing hclosing]
          exact ih hab stack (by simpa using hstack)
      · rw [Scan.splitElement_other hopening hclosing] at h
        obtain ⟨⟨a, b⟩, hab, heq⟩ := Option.map_eq_some_iff.mp h
        cases heq
        rw [openBehind, List.foldl_cons, openAfter_of_other hopening hclosing]
        exact ih hab stack hstack

theorem openBehind_of_splitAfter (opened : List Text) {rest inside after : List Segment}
    (hstart : s.token.isStart = true) (h : splitAfter s.token rest = some (inside, after)) :
    openBehind (openAfter opened s.token) inside = opened := by
  rw [splitAfter] at h
  split at h
  · next hopening =>
    rw [openAfter_of_opening hopening]
    exact openBehind_of_splitElement h [s.token.name] rfl
  · next hopening =>
    cases h
    have hclosing : s.token.kind ≠ .closing := by
      intro hkind
      rw [Token.isStart, hkind] at hstart
      cases hstart
    exact openAfter_of_other hopening hclosing

theorem suffix_around (stack opened : List Text) (token : Token) :
    opened <:+ around (stack ++ opened) token := by
  rw [around]
  split
  · exact ⟨token.name :: stack, rfl⟩
  · exact List.suffix_append stack opened

theorem inside_cons (parts : Option (List Segment × List Segment)) (s : Segment)
    (rest : List Segment) :
    ((parts.map fun (inside, after) => (s :: inside, after)).map Prod.fst).getD (s :: rest) =
      s :: (parts.map Prod.fst).getD rest := by
  cases parts <;> rfl

/-- **What stands inside of an element belongs to it,** also if the element is never
closed. -/
theorem suffix_of_mem_inside {depth : Nat} {stack : List Text} (hstack : stack.length = depth)
    {p : List Text × Segment} (hp : p ∈ located (stack ++ opened)
      (((Scan.splitElement depth segments).map Prod.fst).getD segments)) : opened <:+ p.1 := by
  induction segments generalizing depth stack with
  | nil => cases hp
  | cons s rest ih =>
    by_cases hopening : s.token.kind = .opening
    · rw [Scan.splitElement_opening hopening, inside_cons, located, openAfter_of_opening hopening] at hp
      rcases List.mem_cons.mp hp with rfl | hp
      · exact suffix_around stack opened _
      · have hlength : (s.token.name :: stack).length = depth + 1 := by simp [hstack]
        exact ih hlength hp
    · by_cases hclosing : s.token.kind = .closing
      · cases depth with
        | zero =>
          rw [Scan.splitElement_closing_zero hclosing] at hp
          obtain rfl := List.mem_singleton.mp hp
          exact suffix_around stack opened _
        | succ depth =>
          obtain ⟨name, stack, rfl⟩ := List.exists_cons_of_length_eq_add_one hstack
          rw [Scan.splitElement_closing hclosing, inside_cons, located,
            openAfter_of_closing hclosing] at hp
          rcases List.mem_cons.mp hp with rfl | hp
          · exact suffix_around (name :: stack) opened _
          · exact ih (by simpa using hstack) hp
      · rw [Scan.splitElement_other hopening hclosing, inside_cons, located,
          openAfter_of_other hopening hclosing] at hp
        rcases List.mem_cons.mp hp with rfl | hp
        · exact suffix_around stack opened _
        · exact ih hstack hp

/-- What is in an element that a token starts belongs to that element. -/
theorem sheltered_of_splitAfter (opened : List Text) (rest : List Segment)
    (hstart : s.token.isStart = true) :
    ∀ p ∈ located (openAfter opened s.token)
      (((splitAfter s.token rest).map Prod.fst).getD rest), around opened s.token <:+ p.1 := by
  intro p hp
  rw [around, if_pos hstart]
  rw [splitAfter] at hp
  split at hp
  · next hopening =>
    rw [openAfter_of_opening hopening] at hp
    have hnone : ([] : List Text).length = 0 := rfl
    exact suffix_of_mem_inside hnone hp
  · cases hp

/-! ## Revisions -/

section

variable {σ : Type} {act : σ → Token → σ × Action} {remembers : σ → List Text → Prop}
  {shelters : List Text → Prop} {related : List Text → Segment → Segment → Prop}

/-- What is true of an action and of what is remembered behind it. `remembers` relates
what is remembered to the elements that are open, and `related` a segment to what it
becomes. An element that is passed over `shelters` what belongs to it. -/
def Settles (remembers : σ → List Text → Prop) (shelters : List Text → Prop)
    (related : List Text → Segment → Segment → Prop) (opened : List Text) (s : Segment)
    (memory : σ) : Action → Prop
  | .keep => related (around opened s.token) s s ∧ remembers memory (openAfter opened s.token)
  | .replace tag => related (around opened s.token) s (s.retag tag) ∧
      remembers memory (openAfter opened s.token)
  | .pass => s.token.isStart = true ∧ shelters (around opened s.token) ∧ remembers memory opened
  | .erase => False

/-- A revision that erases nothing at a segment among the elements `names`. -/
structure Keeps (act : σ → Token → σ × Action) (remembers : σ → List Text → Prop)
    (shelters : List Text → Prop) (related : List Text → Segment → Segment → Prop)
    (names : List Text) (s : Segment) : Prop where
  sheltered : shelters names → related names s s
  step : ∀ memory opened, remembers memory opened → around opened s.token = names →
    Settles remembers shelters related opened s (act memory s.token).1 (act memory s.token).2

/-- Segments that are related, one by one, to segments and the elements around
them. -/
def Related (related : List Text → Segment → Segment → Prop) (opened : List Text)
    (segments segments' : List Segment) : Prop :=
  List.Forall₂ (fun p s' => related p.1 p.2 s') (located opened segments) segments'

theorem related_self (h : ∀ p ∈ located opened segments, related p.1 p.2 p.2) :
    Related related opened segments segments := by
  induction segments generalizing opened with
  | nil => exact .nil
  | cons s rest ih =>
    obtain ⟨hs, hrest⟩ := List.forall_mem_cons.mp h
    exact .cons hs (ih hrest)

theorem Related.forall₂ {segments' : List Segment} {r : Segment → Segment → Prop}
    (h : Related related opened segments segments')
    (himp : ∀ names s s', related names s s' → r s s') : List.Forall₂ r segments segments' := by
  induction segments generalizing opened segments' with
  | nil =>
    cases h
    exact .nil
  | cons s rest ih =>
    obtain ⟨s', rest', hs, hrest, rfl⟩ := List.forall₂_cons_left_iff.mp h
    exact .cons (himp _ _ _ hs) (ih hrest)

/-- Whether a revision writes segments to which the old ones are related. -/
def RevisesTo (act : σ → Token → σ × Action) (related : List Text → Segment → Segment → Prop)
    (memory : σ) (opened : List Text) (segments : List Segment) : Prop :=
  ∃ segments', revise act memory segments = sourceAll segments' ∧
    Related related opened segments segments'

namespace RevisesTo

variable {memory memory' : σ} {rest inside after : List Segment}

theorem keep (hnext : act memory s.token = (memory', .keep)) (hs : related (around opened s.token) s s)
    (hrest : RevisesTo act related memory' (openAfter opened s.token) rest) :
    RevisesTo act related memory opened (s :: rest) := by
  obtain ⟨rest', hrevised, hrelated⟩ := hrest
  refine ⟨s :: rest', ?_, .cons hs hrelated⟩
  rw [revise_of_keep hnext, hrevised]
  rfl

theorem replace {tag : Text} (hnext : act memory s.token = (memory', .replace tag))
    (hs : related (around opened s.token) s (s.retag tag))
    (hrest : RevisesTo act related memory' (openAfter opened s.token) rest) :
    RevisesTo act related memory opened (s :: rest) := by
  obtain ⟨rest', hrevised, hrelated⟩ := hrest
  refine ⟨s.retag tag :: rest', ?_, .cons hs hrelated⟩
  rw [revise_of_replace hnext, hrevised]
  rfl

/-- An element that is passed over without an end keeps all that follows. -/
theorem pass_none (hnext : act memory s.token = (memory', .pass))
    (hsplit : splitAfter s.token rest = none) (hs : related (around opened s.token) s s)
    (hrest : ∀ p ∈ located (openAfter opened s.token) rest, related p.1 p.2 p.2) :
    RevisesTo act related memory opened (s :: rest) := by
  refine ⟨s :: rest, ?_, .cons hs (related_self hrest)⟩
  rw [revise_of_pass_none hnext hsplit]
  rfl

theorem pass (hnext : act memory s.token = (memory', .pass))
    (hsplit : splitAfter s.token (inside ++ after) = some (inside, after))
    (hbehind : openBehind (openAfter opened s.token) inside = opened)
    (hs : related (around opened s.token) s s)
    (hinside : ∀ p ∈ located (openAfter opened s.token) inside, related p.1 p.2 p.2)
    (hafter : RevisesTo act related memory' opened after) :
    RevisesTo act related memory opened (s :: (inside ++ after)) := by
  obtain ⟨after', hrevised, hrelated⟩ := hafter
  refine ⟨s :: (inside ++ after'), ?_, .cons hs ?_⟩
  · rw [revise_of_pass hnext hsplit, hrevised, sourceAll_cons, sourceAll_append]
    simp [source]
  · rw [located_append, hbehind]
    exact List.rel_append (related_self hinside) hrelated

end RevisesTo

/-- **A revision that keeps every segment relates the segments to others.** -/
theorem exists_revised
    (h : ∀ p ∈ located opened segments, Keeps act remembers shelters related p.1 p.2)
    (hshelters : ∀ names names', names <:+ names' → shelters names → shelters names')
    {memory : σ} (hmemory : remembers memory opened) :
    RevisesTo act related memory opened segments := by
  induction hlength : segments.length using Nat.strong_induction_on
    generalizing memory opened segments with
  | _ length ih =>
    subst hlength
    cases segments with
    | nil => exact ⟨[], revise_nil, .nil⟩
    | cons s rest =>
      obtain ⟨hs, hrest⟩ := List.forall_mem_cons.mp h
      have hstep := hs.step memory opened hmemory rfl
      rcases hnext : act memory s.token with ⟨memory', action⟩
      rw [hnext] at hstep
      cases action with
      | keep =>
        exact .keep hnext hstep.1 (ih rest.length (Nat.lt_succ_self _) hrest hstep.2 rfl)
      | replace tag =>
        exact .replace hnext hstep.1 (ih rest.length (Nat.lt_succ_self _) hrest hstep.2 rfl)
      | pass =>
        obtain ⟨hstart, hshelter, hmemory'⟩ := hstep
        have hinside := sheltered_of_splitAfter opened rest hstart
        cases hsplit : splitAfter s.token rest with
        | none =>
          rw [hsplit] at hinside
          exact .pass_none hnext hsplit (hs.sheltered hshelter) fun p hp =>
            (hrest p hp).sheltered (hshelters _ _ (hinside p hp) hshelter)
        | some parts =>
          obtain ⟨inside, after⟩ := parts
          rw [hsplit] at hinside
          have hbehind := openBehind_of_splitAfter opened hstart hsplit
          have hlength := length_splitAfter hsplit
          obtain rfl := splitAfter_eq_some hsplit
          rw [located_append, hbehind, List.forall_mem_append] at hrest
          exact .pass hnext hsplit hbehind (hs.sheltered hshelter)
            (fun p hp => (hrest.1 p hp).sheltered (hshelters _ _ (hinside p hp) hshelter))
            (ih after.length (Nat.lt_succ_of_le hlength) hrest.2 hmemory' rfl)
      | erase => cases hstep

/-- **The root is related to what it becomes,** and anything else to which it is related
can take its place, also in a weaker sense. -/
theorem Related.exists_root {before after : List Segment} {root : Segment}
    (h : Related related [] segments (before ++ root :: after))
    (hkind : ∀ names s s', related names s s' → s'.token.kind = s.token.kind)
    (hbefore : ∀ x ∈ before, x.token.isElement = false) (hroot : root.token.isStart = true) :
    ∃ front s back, segments = front ++ s :: back ∧ (∀ x ∈ front, x.token.isElement = false) ∧
      ([s.token.name], s) ∈ located [] segments ∧ related [s.token.name] s root ∧
      ∀ {weaker : List Text → Segment → Segment → Prop},
        (∀ names s s', related names s s' → weaker names s s') →
        ∀ root', weaker [s.token.name] s root' →
          Related weaker [] segments (before ++ root' :: after) := by
  induction before generalizing segments with
  | nil =>
    cases segments with
    | nil => cases h
    | cons s rest =>
      obtain ⟨hs, hrest⟩ := List.forall₂_cons.mp h
      have hstart : s.token.isStart = true := by
        rw [Token.isStart, ← hkind _ _ _ hs]
        exact hroot
      have haround : around [] s.token = [s.token.name] := by rw [around, if_pos hstart]
      dsimp only at hs
      rw [haround] at hs
      refine ⟨[], s, rest, rfl, List.forall_mem_nil _,
        by rw [located, haround]; exact List.mem_cons_self, hs,
        fun himp root' hroot' => List.forall₂_cons.mpr ⟨?_, hrest.imp fun _ _ => himp _ _ _⟩⟩
      dsimp only
      rw [haround]
      exact hroot'
  | cons x before ih =>
    cases segments with
    | nil => cases h
    | cons s rest =>
      obtain ⟨hs, hrest⟩ := List.forall₂_cons.mp h
      obtain ⟨hx, hbefore⟩ := List.forall_mem_cons.mp hbefore
      have hinert : s.token.isElement = false := by
        rw [Token.isElement, ← hkind _ _ _ hs]
        exact hx
      have hopen : openAfter [] s.token = [] := by
        rw [openAfter]
        split
        · next hopening => rw [Token.isElement, hopening] at hinert; cases hinert
        · rfl
        · rfl
      rw [hopen] at hrest
      obtain ⟨front, root₀, back, rfl, hfront, hmem, hroot₀, hreplace⟩ := ih hrest hbefore
      refine ⟨s :: front, root₀, back, rfl, List.forall_mem_cons.mpr ⟨hinert, hfront⟩,
        by rw [located, hopen]; exact List.mem_cons_of_mem _ hmem, hroot₀,
        fun himp root' hroot' => List.forall₂_cons.mpr ⟨himp _ _ _ hs, ?_⟩⟩
      rw [hopen]
      exact hreplace himp root' hroot'

/-- **Related segments stand among related elements.** `renamed` relates the elements that
are open to what they become. -/
theorem Related.located {renamed : List Text → List Text → Prop} {opened opened' : List Text}
    {segments' : List Segment} (h : Related related opened segments segments')
    (hopened : renamed opened opened')
    (hkind : ∀ names s s', related names s s' → s'.token.kind = s.token.kind)
    (hcons : ∀ opened opened' s s', renamed opened opened' → s.token.isStart = true →
      related (s.token.name :: opened) s s' →
        renamed (s.token.name :: opened) (s'.token.name :: opened'))
    (hdrop : ∀ opened opened', renamed opened opened' →
      renamed (opened.drop 1) (opened'.drop 1)) :
    List.Forall₂ (fun p p' => related p.1 p.2 p'.2 ∧ renamed p.1 p'.1)
      (Segment.located opened segments) (Segment.located opened' segments') := by
  induction segments generalizing opened opened' segments' with
  | nil =>
    cases h
    exact .nil
  | cons s rest ih =>
    obtain ⟨s', rest', hs, hrest, rfl⟩ := List.forall₂_cons_left_iff.mp h
    have hsame : s'.token.kind = s.token.kind := hkind _ _ _ hs
    have hstart' : s'.token.isStart = s.token.isStart := by rw [Token.isStart, hsame, Token.isStart]
    have haround : renamed (around opened s.token) (around opened' s'.token) := by
      dsimp only at hs
      rw [around] at hs ⊢
      rw [around, hstart']
      split
      · next hstart =>
        rw [if_pos hstart] at hs
        exact hcons _ _ _ _ hopened hstart hs
      · exact hopened
    refine .cons ⟨hs, haround⟩ (ih hrest ?_)
    rw [openAfter, openAfter, hsame]
    split
    · next hopening =>
      have hstart : s.token.isStart = true := by rw [Token.isStart, hopening]; rfl
      rwa [around, around, hstart', if_pos hstart, if_pos hstart] at haround
    · exact hdrop _ _ hopened
    · exact hopened

end

end Segment

end SkinMarkup
