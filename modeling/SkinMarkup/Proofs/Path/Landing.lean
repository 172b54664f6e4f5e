import SkinMarkup.Path.Basic
import SkinMarkup.Proofs.Path.Selection

/-!
# Where the search for a path ends

The search from left to right goes on when the element whose children it counts
is closed. It then counts the elements at the same depth of the whole rest of
the document, whoever their parent is, and once nothing is left to count it
takes the next start tag at that depth or above it. `landing` says this about
the outline of a document, which lists its tags with their depths, and
`rangeAt_eq_landing` that the search does so.

A path that the tree does not have is therefore missing in the text exactly
when its landing is: `rangeAt_eq_missing_iff`.
-/

namespace SkinMarkup

namespace Tag

mutual

/-- A tag at a depth and all tags below it, each before its children. -/
def outline (level : Nat) : Tag → List (Nat × Tag)
  | ⟨head, leaf, tags⟩ => (level, ⟨head, leaf, tags⟩) :: outlineAll (level + 1) tags

/-- The tags of a list at a depth and all tags below them. -/
def outlineAll (level : Nat) : List Tag → List (Nat × Tag)
  | [] => []
  | tag :: tags => outline level tag ++ outlineAll level tags

end

theorem outlineAll_nil (level : Nat) : outlineAll level [] = [] := by
  rw [outlineAll]

theorem outlineAll_cons (level : Nat) (tag : Tag) (ts : List Tag) :
    outlineAll level (tag :: ts) =
      (level, tag) :: (outlineAll (level + 1) tag.tags ++ outlineAll level ts) := by
  cases tag
  rw [outlineAll, outline, List.cons_append]

mutual

theorem map_snd_outline :
    ∀ (level : Nat) (tag : Tag), (outline level tag).map Prod.snd = tag.preorder
  | level, ⟨head, leaf, tags⟩ => by
    rw [outline, preorder, List.map_cons, map_snd_outlineAll]

theorem map_snd_outlineAll :
    ∀ (level : Nat) (ts : List Tag), (outlineAll level ts).map Prod.snd = preorderAll ts
  | _, [] => by rw [outlineAll, preorderAll, List.map_nil]
  | level, tag :: ts => by
    rw [outlineAll, preorderAll, List.map_append, map_snd_outline, map_snd_outlineAll]

end

end Tag

/-! ## The rule -/

/-- The next tag for an index among the children at depth `base`. The tags at
that depth are counted, and behind the last one that counts, the next tag at
that depth is taken or the next one above it that has an end tag. It comes with
its own depth and what follows it. -/
def nextAt (base index : Nat) : List (Nat × Tag) → Option (Nat × Tag × List (Nat × Tag))
  | [] => none
  | (level, tag) :: later =>
    if index = 0 then
      if level = base ∨ (level < base ∧ tag.head.selfClosing = false) then some (level, tag, later)
      else nextAt base 0 later
    else
      nextAt base (if level = base then index - 1 else index) later

/-- The tag at which the search for a path ends, among the tags that follow at
depth `base` and elsewhere. -/
def landing (base : Nat) : List Nat → List (Nat × Tag) → Option Tag
  | [], _ => none
  | index :: rest, entries =>
    match nextAt base index entries with
    | none => none
    | some (level, tag, later) =>
      if rest = [] then some tag
      else if tag.head.selfClosing then none
      else landing (level + 1) rest later

section

variable {base index level : Nat} {rest : List Nat} {tag : Tag} {later : List (Nat × Tag)}

theorem landing_nil (base index : Nat) (rest : List Nat) :
    landing base (index :: rest) [] = none := by
  rw [landing, nextAt]

theorem landing_of_ne_zero (h : index ≠ 0) :
    landing base (index :: rest) ((level, tag) :: later) =
      landing base ((if level = base then index - 1 else index) :: rest) later := by
  rw [landing, nextAt, if_neg h, landing]

theorem landing_of_skip (h : ¬(level = base ∨ (level < base ∧ tag.head.selfClosing = false))) :
    landing base (0 :: rest) ((level, tag) :: later) = landing base (0 :: rest) later := by
  rw [landing, nextAt, if_pos rfl, if_neg h, landing]

theorem landing_of_taken (h : level = base ∨ (level < base ∧ tag.head.selfClosing = false)) :
    landing base (0 :: rest) ((level, tag) :: later) =
      if rest = [] then some tag
      else if tag.head.selfClosing then none
      else landing (level + 1) rest later := by
  rw [landing, nextAt, if_pos rfl, if_pos h]

end

/-- A tag that is taken stands among the others. -/
theorem split_of_nextAt {base : Nat} {entries later : List (Nat × Tag)} {level : Nat} {tag : Tag} :
    ∀ {index : Nat}, nextAt base index entries = some (level, tag, later) →
      ∃ passed, entries = passed ++ (level, tag) :: later := by
  induction entries with
  | nil =>
    intro index h
    cases h
  | cons entry entries ih =>
    intro index h
    have hlater : ∀ {index : Nat}, nextAt base index entries = some (level, tag, later) →
        ∃ passed, entry :: entries = passed ++ (level, tag) :: later := by
      intro index h
      obtain ⟨passed, rfl⟩ := ih h
      exact ⟨entry :: passed, rfl⟩
    rw [nextAt] at h
    split at h
    · split at h
      · cases h
        exact ⟨[], rfl⟩
      · exact hlater h
    · exact hlater h

theorem mem_of_landing {path : List Nat} :
    ∀ {base : Nat} {entries : List (Nat × Tag)} {tag : Tag}, landing base path entries = some tag →
      tag ∈ entries.map Prod.snd := by
  induction path with
  | nil =>
    intro base entries tag h
    cases h
  | cons index rest ih =>
    intro base entries tag h
    rw [landing] at h
    split at h
    · cases h
    · next level x later hnext =>
      obtain ⟨passed, rfl⟩ := split_of_nextAt hnext
      rw [List.map_append, List.map_cons]
      split at h
      · cases h
        exact List.mem_append_right _ List.mem_cons_self
      · split at h
        · cases h
        · exact List.mem_append_right _ (List.mem_cons_of_mem _ (ih h))

/-! ## The search follows the rule -/

/-- Tokens that follow one another at a depth, and the tags that start among
them. -/
inductive Ahead (t : Text) : Nat → List Token → List (Nat × Tag) → Prop where
  | done (level : Nat) : Ahead t level [] []
  | empty {level : Nat} {tag : Tag} {tokens : List Token} {later : List (Nat × Tag)}
      (hself : tag.head.selfClosing = true) (h : Ahead t level tokens later) :
      Ahead t level (tag.startToken t :: tokens) ((level, tag) :: later)
  | node {level : Nat} {tag : Tag} {tokens : List Token} {later : List (Nat × Tag)}
      (hself : tag.head.selfClosing = false)
      (h : Ahead t (level + 1) (Tag.tokens t tag.tags ++ tag.endToken t :: tokens) later) :
      Ahead t level (tag.startToken t :: (Tag.tokens t tag.tags ++ tag.endToken t :: tokens))
        ((level, tag) :: later)
  | close {level : Nat} {tag : Tag} {tokens : List Token} {later : List (Nat × Tag)}
      (h : Ahead t level tokens later) : Ahead t (level + 1) (tag.endToken t :: tokens) later

/-- Forests have their tags ahead. -/
theorem Ahead.append {t : Text} (ts : List Tag) :
    ∀ {level : Nat} {tokens : List Token} {later : List (Nat × Tag)}, Tag.Leafy ts →
      Ahead t level tokens later →
      Ahead t level (Tag.tokens t ts ++ tokens) (Tag.outlineAll level ts ++ later) := by
  induction ts using Tag.forest_induction with
  | nil =>
    intro level tokens later _ h
    rw [Tag.tokens_nil, Tag.outlineAll_nil]
    exact h
  | empty tag ts hself ih =>
    intro level tokens later hleafy h
    obtain ⟨⟨hnil, -⟩, hts⟩ := Tag.everywhere_cons.mp hleafy
    rw [Tag.tokens_cons_of_selfClosing hself, Tag.outlineAll_cons, hnil hself, Tag.outlineAll_nil]
    exact .empty hself (ih hts h)
  | node tag ts hself ihtags ih =>
    intro level tokens later hleafy h
    obtain ⟨⟨-, htags⟩, hts⟩ := Tag.everywhere_cons.mp hleafy
    rw [Tag.tokens_cons_of_not_selfClosing hself, Tag.outlineAll_cons, List.cons_append,
      List.cons_append, List.append_assoc, List.append_assoc, List.cons_append]
    exact .node hself (ihtags htags (.close (ih hts h)))

/-- The first remaining index of a search: an element is counted by the rule
where it starts and by the search where it ends. -/
def awaited (base index level : Nat) : Int :=
  if level ≤ base then index else index + 1

/-- The range of a tag, if there is one. -/
def rangeOf (t : Text) (found : Option Tag) : ElementRange :=
  (found.map (Tag.tokenRange t)).getD ElementRange.missing

section

variable {visible : Token → Bool} {t : Text} {base index level : Nat} {rest : List Nat} {tag : Tag}
  {later : List (Nat × Tag)}

theorem awaited_of_le (h : level ≤ base) : awaited base index level = index := if_pos h

theorem awaited_of_lt (h : base < level) : awaited base index level = index + 1 := if_neg (by omega)

/-- A tag that is not at the depth of the children does not change what lies
ahead, if it is an empty element or below them. -/
theorem landing_of_elsewhere (hlevel : level ≠ base)
    (h : base < level ∨ tag.head.selfClosing = true) :
    landing base (index :: rest) ((level, tag) :: later) = landing base (index :: rest) later := by
  by_cases hindex : index = 0
  · subst hindex
    apply landing_of_skip
    rintro (heq | ⟨hlt, hself⟩)
    · exact hlevel heq
    · rcases h with h | h
      · omega
      · cases hself.symm.trans h
  · rw [landing_of_ne_zero hindex, if_neg hlevel]

/-- The search follows the rule from here on, whatever it looks for. -/
def Follows (visible : Token → Bool) (t : Text) (level : Nat) (tokens : List Token)
    (entries : List (Nat × Tag)) : Prop :=
  ∀ (base index : Nat) (rest : List Nat),
    seekRange visible (awaited base index level :: rest.map fun n : Nat => (n : Int))
      ((level : Int) - base) none tokens = rangeOf t (landing base (index :: rest) entries)

variable {tokens : List Token} (hvisible : ∀ token, visible token = true)

include hvisible

theorem metIndex_of_all_visible (token : Token) (depth index : Int) :
    metIndex visible token depth index = index :=
  metIndex_of_visible (hvisible token) depth index

theorem Follows.empty (hself : tag.head.selfClosing = true)
    (h : Follows visible t level tokens later) :
    Follows visible t level (tag.startToken t :: tokens) ((level, tag) :: later) := by
  intro base index rest
  have hkind := Tag.startToken_kind_of_selfClosing (t := t) hself
  have hmet := metIndex_of_all_visible hvisible
  by_cases hlevel : level = base
  · subst hlevel
    rw [awaited_of_le (Nat.le_refl _), Int.sub_self]
    by_cases hindex : index = 0
    · subst hindex
      rw [landing_of_taken (Or.inl rfl), if_pos hself]
      by_cases hrest : rest = []
      · subst hrest
        rw [if_pos rfl, rangeOf, Option.map_some, Option.getD_some, Tag.tokenRange, if_pos hself]
        exact seekRange_selfClosing_found hkind (hmet _ _ _)
      · rw [if_neg hrest]
        exact seekRange_selfClosing_missing hkind (hmet _ _ _) (by simpa using hrest)
    · have hnext := h level (index - 1) rest
      have hcast : ((index - 1 : Nat) : Int) = (index : Int) - 1 := by omega
      rw [awaited_of_le (Nat.le_refl _), Int.sub_self, hcast] at hnext
      rw [landing_of_ne_zero hindex, if_pos rfl, ← hnext,
        seekRange_selfClosing_pass hkind (by rw [hmet]; omega), hmet]
  · rw [seekRange_selfClosing_below hkind (by omega), h, landing_of_elsewhere hlevel (Or.inr hself)]

theorem Follows.node (hself : tag.head.selfClosing = false)
    (h : Follows visible t (level + 1) (Tag.tokens t tag.tags ++ tag.endToken t :: tokens) later) :
    Follows visible t level (tag.startToken t :: (Tag.tokens t tag.tags ++ tag.endToken t :: tokens))
      ((level, tag) :: later) := by
  intro base index rest
  have hkind := Tag.startToken_kind_of_not_selfClosing (t := t) hself
  have hmet := metIndex_of_all_visible hvisible
  have hdepth : ((level + 1 : Nat) : Int) - base = (level : Int) - base + 1 := by omega
  by_cases hbelow : base < level
  · have hnext := h base index rest
    rw [awaited_of_lt (by omega), hdepth] at hnext
    rw [awaited_of_lt hbelow, seekRange_opening_pass hkind (by rw [hmet]; omega), hmet, hnext,
      landing_of_elsewhere (by omega) (Or.inl hbelow)]
  · rw [awaited_of_le (by omega)]
    by_cases hindex : index = 0
    · subst hindex
      have htaken : level = base ∨ (level < base ∧ tag.head.selfClosing = false) := by
        rcases Nat.lt_or_eq_of_le (Nat.not_lt.mp hbelow) with hlt | heq
        · exact Or.inr ⟨hlt, hself⟩
        · exact Or.inl heq
      rw [landing_of_taken htaken, hself, if_neg Bool.false_ne_true]
      cases rest with
      | nil =>
        rw [if_pos rfl, rangeOf, Option.map_some, Option.getD_some, Tag.tokenRange, hself,
          if_neg Bool.false_ne_true]
        exact (seekRange_opening_found hkind (hmet _ _ _)).trans (seekRange_found tag tokens)
      | cons next rest =>
        have hnext := h (level + 1) next rest
        rw [awaited_of_le (Nat.le_refl _), Int.sub_self] at hnext
        rw [if_neg (List.cons_ne_nil _ _), ← hnext]
        exact seekRange_opening_enter hkind (hmet _ _ _) (by simp)
    · -- The rule counts a tag among the children now, the search at its end.
      have hnext := h base (if level = base then index - 1 else index) rest
      have hawaited :
          awaited base (if level = base then index - 1 else index) (level + 1) = index := by
        by_cases hlevel : level = base
        · rw [if_pos hlevel, awaited_of_lt (by omega)]
          omega
        · rw [if_neg hlevel, awaited_of_le (by omega)]
      rw [hawaited, hdepth] at hnext
      rw [landing_of_ne_zero hindex, ← hnext, seekRange_opening_pass hkind (by rw [hmet]; omega), hmet]

theorem Follows.close (h : Follows visible t level tokens later) :
    Follows visible t (level + 1) (tag.endToken t :: tokens) later := by
  intro base index rest
  have hmet := metIndex_of_all_visible hvisible
  have hdepth : ((level + 1 : Nat) : Int) - base - 1 = (level : Int) - base := by omega
  -- At the end of a child the search counts what the rule counted at its start.
  have hawaited : (if ((level + 1 : Nat) : Int) - base = 1 then awaited base index (level + 1) - 1
      else awaited base index (level + 1)) = awaited base index level := by
    unfold awaited
    split <;> split <;> split <;> omega
  rw [seekRange_closing Tag.endToken_kind (hmet _ _ _), hawaited, hdepth, h]

/-- **The search follows the rule,** as long as every tag is visible. -/
theorem follows_of_ahead {entries : List (Nat × Tag)} (h : Ahead t level tokens entries) :
    Follows visible t level tokens entries := by
  induction h with
  | done level =>
    intro base index rest
    rw [landing_nil]
    rfl
  | empty hself _ ih => exact Follows.empty hvisible hself ih
  | node hself _ ih => exact Follows.node hvisible hself ih
  | close _ ih => exact Follows.close hvisible ih

end

/-! ## Documents -/

variable {d : Dialect} {t : Text} {root : Tag}

/-- **Where the search for a path ends in a document.** -/
theorem rangeAt_eq_landing (hplain : Plain t) (h : parseStrict t = .ok root) {index : Nat}
    {rest : List Nat} (hindices : ∀ n ∈ index :: rest, n < 2 ^ 63) :
    rangeAt d none (index :: rest) t =
      ((landing 0 (index :: rest) (root.outline 0)).map Tag.range).getD ElementRange.missing := by
  have hleafy := leafy_of_parseStrict hplain.unmarked h
  have hahead := Ahead.append [root] hleafy (Ahead.done (t := t) 0)
  rw [List.append_nil, List.append_nil, Tag.outlineAll, Tag.outlineAll, List.append_nil] at hahead
  have hvisible : ∀ token, Token.isVisible d none token = true := fun _ => rfl
  have hfollows := follows_of_ahead hvisible hahead 0 index rest
  rw [awaited_of_le (Nat.le_refl _), Int.sub_self] at hfollows
  have hrange : (landing 0 (index :: rest) (root.outline 0)).map (Tag.tokenRange t) =
      (landing 0 (index :: rest) (root.outline 0)).map Tag.range := by
    refine Option.map_congr fun tag htag => ?_
    have hmem := mem_of_landing htag
    rw [Tag.map_snd_outline] at hmem
    exact tokenRange_of_parseStrict hplain h tag
      (Tag.mem_preorderAll_of_mem_preorder List.mem_cons_self hmem)
  rw [rangeAt, map_signedIndex hindices, elements_of_parseStrict hplain h, ← hrange]
  exact hfollows

/-- **When a path that the tree does not have is missing in the text.** Without
a state, the range of any path is that of its landing, so a path without a tag
in the tree has no range exactly when it has no landing. -/
theorem rangeAt_eq_missing_iff (hplain : Plain t) (h : parseStrict t = .ok root) {rest : List Nat}
    (hindices : ∀ n ∈ 0 :: rest, n < 2 ^ 63) :
    rangeAt d none (0 :: rest) t =
        ((landing 0 (0 :: rest) (root.outline 0)).map Tag.range).getD ElementRange.missing ∧
      (itemAt? d none root (0 :: rest) = none →
        (rangeAt d none (0 :: rest) t = ElementRange.missing ↔
          landing 0 (0 :: rest) (root.outline 0) = none)) := by
  have hrange := rangeAt_eq_landing (d := d) hplain h hindices
  refine ⟨hrange, fun _ => ?_⟩
  rw [hrange]
  cases landing 0 (0 :: rest) (root.outline 0) with
  | none => simp
  | some tag => simp [Tag.range, ElementRange.missing]

/-- A path below an element without children whose next sibling has an end tag. -/
theorem rangeAt_eq_missing_iff_of_leaf :
    let t := "<a><b></b><c></c></a>".toList
    ∃ root, Plain t ∧ parseStrict t = .ok root ∧ (∀ n ∈ [0, 0, 0], n < 2 ^ 63) ∧
      itemAt? Dialect.standard none root [0, 0, 0] = none ∧
      (landing 0 [0, 0, 0] (root.outline 0)).isSome = true ∧
      rangeAt Dialect.standard none [0, 0, 0] t =
        ((landing 0 [0, 0, 0] (root.outline 0)).map Tag.range).getD ElementRange.missing ∧
      (rangeAt Dialect.standard none [0, 0, 0] t = ElementRange.missing ↔
        landing 0 [0, 0, 0] (root.outline 0) = none) := by
  intro t
  have hplain : Plain t := by decide +kernel
  have hany : ((parseStrict t).toOption.any fun root =>
      (itemAt? Dialect.standard none root [0, 0, 0]).isNone &&
        (landing 0 [0, 0, 0] (root.outline 0)).isSome) = true := by
    decide +kernel
  obtain ⟨root, hroot, hproperties⟩ := exists_of_any_toOption hany
  simp only [Bool.and_eq_true, Option.isNone_iff_eq_none] at hproperties
  obtain ⟨hnone, hlanding⟩ := hproperties
  have hindices : ∀ n ∈ [0, 0, 0], n < 2 ^ 63 := by decide
  obtain ⟨hrange, hmissing⟩ := rangeAt_eq_missing_iff hplain hroot hindices
  exact ⟨root, hplain, hroot, hindices, hnone, hlanding, hrange, hmissing hnone⟩

/-- The search finds the sibling instead of nothing. -/
theorem rangeAt_ne_missing_of_leaf :
    let t := "<a><b></b><c></c></a>".toList
    ∃ root, Plain t ∧ parseStrict t = .ok root ∧
      itemAt? Dialect.standard none root [0, 0, 0] = none ∧
      rangeAt Dialect.standard none [0, 0, 0] t = ⟨some ⟨10, 13⟩, some ⟨13, 17⟩⟩ := by
  intro t
  have hany : ((parseStrict t).toOption.any fun root =>
      (itemAt? Dialect.standard none root [0, 0, 0]).isNone) = true := by
    decide +kernel
  obtain ⟨root, hroot, hnone⟩ := exists_of_any_toOption hany
  exact ⟨root, by decide +kernel, hroot, Option.isNone_iff_eq_none.mp hnone, by decide +kernel⟩

end SkinMarkup
