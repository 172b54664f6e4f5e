import Mathlib.Data.List.Nodup
import SkinMarkup.Proofs.Document.Steps
import SkinMarkup.Proofs.Text.Names
import SkinMarkup.Visibility

/-!
# Tags that appear in exactly one state

To tell whether a tag appears in exactly one state, `Tag.isSingleState` counts: the
states that an exclusion list leaves over, or the entries of an inclusion list. States
are counted rightly, entries need not be: an entry may name a state that is not
declared, and a state may be named twice. `isSingleState_iff` says which inclusion lists
are miscounted.
-/

namespace SkinMarkup

theorem length_filter_eq_one_iff {α : Type} {l : List α} {p : α → Bool} (h : l.Nodup) :
    (l.filter p).length = 1 ↔ ∃! x, x ∈ l ∧ p x = true := by
  constructor
  · intro hlength
    obtain ⟨x, hx⟩ := List.length_eq_one_iff.mp hlength
    have hmem : ∀ y, y ∈ l ∧ p y = true ↔ y = x := by
      intro y
      rw [← List.mem_filter, hx, List.mem_singleton]
    exact ⟨x, (hmem x).mpr rfl, fun y hy => (hmem y).mp hy⟩
  · rintro ⟨x, hx, honly⟩
    have hall : ∀ y ∈ l.filter p, y = x := fun y hy => honly y (List.mem_filter.mp hy)
    have hle : (l.filter p).length ≤ 1 := by
      have hnodup := h.filter p
      rwa [List.eq_replicate_of_mem hall, List.nodup_replicate] at hnodup
    have hpos : 0 < (l.filter p).length := List.length_pos_of_mem (List.mem_filter.mpr hx)
    omega

/-! ## Visibility through lists -/

namespace Membership

variable {d : Dialect} {m : Membership} {state list : Text}

theorem visibleIn_of_included (hskin : m.localName ≠ d.skin) (hdot : '.' ∉ m.localName)
    (h : m.includeIn = some list) :
    m.visibleIn d state = true ↔ state ∈ StateList.entries list := by
  rw [visibleIn, if_neg hskin, cutAt_eq_none_iff.mpr hdot, h]
  exact List.contains_iff_mem

theorem visibleIn_of_excluded (hskin : m.localName ≠ d.skin) (hdot : '.' ∉ m.localName)
    (hnone : m.includeIn = none) (h : m.excludeFrom = some list) :
    m.visibleIn d state = !(StateList.entries list).contains state := by
  rw [visibleIn, if_neg hskin, cutAt_eq_none_iff.mpr hdot, hnone, h]

end Membership

variable {d : Dialect} {allStates : List Text} {t : Tag} {state : Text}

theorem Tag.isVisible_some (h : state ≠ []) :
    t.isVisible d (some state) = (Membership.ofTag t).visibleIn d state := by
  have hactive : activeState (some state) = some state := by
    simp [activeState, h]
  rw [isVisible, hactive]

theorem Tag.isSingleState_iff_length (hskin : t.localName ≠ d.skin) :
    t.isSingleState d allStates = true ↔ ((Membership.ofTag t).states allStates).length = 1 := by
  simp [isSingleState, hskin]

/-! ## Lists with a wrong number of entries -/

/-- Inclusion lists whose entries do not count the declared states among them: the only
entry is not declared, or one declared state stands there beside other entries, be it
again or beside some that are not declared. -/
def Miscounted (allStates entries : List Text) : Prop :=
  (∃ s, s ∉ allStates ∧ entries = [s]) ∨
  (1 < entries.length ∧ ∃! s, s ∈ allStates ∧ s ∈ entries)

theorem length_eq_one_iff_of_counted {entries : List Text} :
    (entries.length = 1 ↔ ∃! s, s ∈ allStates ∧ s ∈ entries) ↔ ¬ Miscounted allStates entries := by
  constructor
  · rintro h (⟨s, hundeclared, rfl⟩ | ⟨hlong, hone⟩)
    · obtain ⟨x, ⟨hdeclared, hx⟩, -⟩ := h.mp rfl
      rw [List.mem_singleton.mp hx] at hdeclared
      exact hundeclared hdeclared
    · have := h.mpr hone
      omega
  · intro h
    constructor
    · intro hlength
      obtain ⟨s, rfl⟩ := List.length_eq_one_iff.mp hlength
      have hdeclared : s ∈ allStates := by
        by_contra hundeclared
        exact h (.inl ⟨s, hundeclared, rfl⟩)
      exact ⟨s, ⟨hdeclared, List.mem_singleton_self s⟩, fun x hx => List.mem_singleton.mp hx.2⟩
    · intro hone
      have hpos : 0 < entries.length := by
        obtain ⟨s, ⟨-, hs⟩, -⟩ := hone
        exact List.length_pos_of_mem hs
      by_contra hlength
      exact h (.inr ⟨by omega, hone⟩)

/-- An exclusion list leaves over what is visible. -/
theorem isSingleState_iff_of_excluded {excluded : Text} (hskin : t.localName ≠ d.skin)
    (hdot : '.' ∉ t.localName) (hnone : t.head.value? Word.includeIn = none)
    (h : t.head.value? Word.excludeFrom = some excluded) (hnodup : allStates.Nodup)
    (hnames : ∀ s ∈ allStates, s ≠ []) :
    t.isSingleState d allStates = true ↔
      ∃! s, s ∈ allStates ∧ t.isVisible d (some s) = true := by
  have hstates : (Membership.ofTag t).states allStates =
      allStates.filter fun s => !(StateList.entries excluded).contains s := by
    rw [Membership.states, Membership.ofTag, hnone, h]
  rw [Tag.isSingleState_iff_length hskin, hstates, length_filter_eq_one_iff hnodup]
  refine existsUnique_congr fun s => and_congr_right fun hs => ?_
  rw [Tag.isVisible_some (hnames s hs), Membership.visibleIn_of_excluded hskin hdot hnone h]

/-- Through an inclusion list a tag is visible in the declared states among its entries, and
the entries are counted. -/
theorem isSingleState_iff_of_included {included : Text} (hskin : t.localName ≠ d.skin)
    (hdot : '.' ∉ t.localName) (h : t.head.value? Word.includeIn = some included)
    (hnames : ∀ s ∈ allStates, s ≠ []) :
    (t.isSingleState d allStates = true ↔
      ∃! s, s ∈ allStates ∧ t.isVisible d (some s) = true) ↔
      ¬ Miscounted allStates (StateList.entries included) := by
  have hstates : (Membership.ofTag t).states allStates = StateList.entries included := by
    rw [Membership.states, Membership.ofTag, h]
  have hvisible : (∃! s, s ∈ allStates ∧ t.isVisible d (some s) = true) ↔
      ∃! s, s ∈ allStates ∧ s ∈ StateList.entries included := by
    refine existsUnique_congr fun s => and_congr_right fun hs => ?_
    rw [Tag.isVisible_some (hnames s hs), Membership.visibleIn_of_included hskin hdot h]
  rw [Tag.isSingleState_iff_length hskin, hstates, hvisible]
  exact length_eq_one_iff_of_counted

/-- **A tag that lists states is taken to appear in a single one exactly if it is visible in
exactly one,** unless its inclusion list is miscounted. Such a list is the only exception,
and always is one. The tag is not the root of a skin and is not pinned to a state, and
the declared states have different names, none of them empty. -/
theorem isSingleState_iff (hskin : t.localName ≠ d.skin) (hdot : '.' ∉ t.localName)
    (hlists : t.head.value? Word.includeIn ≠ none ∨ t.head.value? Word.excludeFrom ≠ none)
    (hnodup : allStates.Nodup) (hnames : ∀ s ∈ allStates, s ≠ []) :
    (t.isSingleState d allStates = true ↔
      ∃! s, s ∈ allStates ∧ t.isVisible d (some s) = true) ↔
      ∀ included ∈ t.head.value? Word.includeIn,
        ¬ Miscounted allStates (StateList.entries included) := by
  cases hincluded : t.head.value? Word.includeIn with
  | some included =>
    rw [isSingleState_iff_of_included hskin hdot hincluded hnames]
    simp
  | none =>
    have hexcluded := hlists.resolve_left (not_not_intro hincluded)
    obtain ⟨excluded, hexcluded⟩ := Option.ne_none_iff_exists'.mp hexcluded
    rw [isSingleState_iff_of_excluded hskin hdot hincluded hexcluded hnodup hnames]
    simp

/-- A tag with both lists, the first of which names a state twice, but another one, too. -/
theorem isSingleState_iff_of_repeated :
    let t := "<b includeIn=' up,down,, up' excludeFrom='up'/>".toList
    let allStates := [['u', 'p'], ['d', 'o', 'w', 'n'], ['o', 'f', 'f']]
    ∃ root, parseStrict t = .ok root ∧ root.localName ≠ Dialect.standard.skin ∧
      '.' ∉ root.localName ∧
      (root.head.value? Word.includeIn ≠ none ∨ root.head.value? Word.excludeFrom ≠ none) ∧
      allStates.Nodup ∧ (∀ s ∈ allStates, s ≠ []) ∧
      ((root.isSingleState Dialect.standard allStates = true ↔
        ∃! s, s ∈ allStates ∧ root.isVisible Dialect.standard (some s) = true) ↔
        ∀ included ∈ root.head.value? Word.includeIn,
          ¬ Miscounted allStates (StateList.entries included)) := by
  intro t allStates
  have hany : ((parseStrict t).toOption.any fun root =>
      decide (root.localName ≠ Dialect.standard.skin ∧ '.' ∉ root.localName ∧
        root.head.value? Word.includeIn ≠ none)) = true := by
    decide +kernel
  obtain ⟨root, hroot, hproperties⟩ := exists_of_any_toOption hany
  obtain ⟨hskin, hdot, hincluded⟩ := of_decide_eq_true hproperties
  exact ⟨root, hroot, hskin, hdot, .inl hincluded, by decide, by decide,
    isSingleState_iff hskin hdot (.inl hincluded) (by decide) (by decide)⟩

/-- A tag that lists a state twice appears in one state and is not taken to; a tag that
lists a state that is not declared is taken to and appears in none. -/
theorem not_isSingleState_iff_of_miscounted :
    let allStates := [['a']]
    (∃ root, parseStrict "<r includeIn=\"a,a\"/>".toList = .ok root ∧
      root.localName ≠ Dialect.standard.skin ∧ '.' ∉ root.localName ∧
      root.head.value? Word.includeIn ≠ none ∧
      root.isSingleState Dialect.standard allStates = false ∧
      ∃! s, s ∈ allStates ∧ root.isVisible Dialect.standard (some s) = true) ∧
    ∃ root, parseStrict "<r includeIn=\"z\"/>".toList = .ok root ∧
      root.localName ≠ Dialect.standard.skin ∧ '.' ∉ root.localName ∧
      root.head.value? Word.includeIn ≠ none ∧
      root.isSingleState Dialect.standard allStates = true ∧
      ¬ ∃! s, s ∈ allStates ∧ root.isVisible Dialect.standard (some s) = true := by
  intro allStates
  constructor
  · have hany : ((parseStrict "<r includeIn=\"a,a\"/>".toList).toOption.any fun root =>
        decide (root.localName ≠ Dialect.standard.skin ∧ '.' ∉ root.localName ∧
          root.head.value? Word.includeIn ≠ none ∧
          root.isSingleState Dialect.standard allStates = false ∧
          root.isVisible Dialect.standard (some ['a']) = true)) = true := by
      decide +kernel
    obtain ⟨root, hroot, hproperties⟩ := exists_of_any_toOption hany
    obtain ⟨hskin, hdot, hincluded, hsingle, hvisible⟩ := of_decide_eq_true hproperties
    refine ⟨root, hroot, hskin, hdot, hincluded, hsingle, ['a'], ⟨by decide, hvisible⟩, ?_⟩
    intro s hs
    exact List.mem_singleton.mp hs.1
  · have hany : ((parseStrict "<r includeIn=\"z\"/>".toList).toOption.any fun root =>
        decide (root.localName ≠ Dialect.standard.skin ∧ '.' ∉ root.localName ∧
          root.head.value? Word.includeIn ≠ none ∧
          root.isSingleState Dialect.standard allStates = true ∧
          root.isVisible Dialect.standard (some ['a']) = false)) = true := by
      decide +kernel
    obtain ⟨root, hroot, hproperties⟩ := exists_of_any_toOption hany
    obtain ⟨hskin, hdot, hincluded, hsingle, hhidden⟩ := of_decide_eq_true hproperties
    refine ⟨root, hroot, hskin, hdot, hincluded, hsingle, ?_⟩
    rintro ⟨s, ⟨hs, hvisible⟩, -⟩
    rw [List.mem_singleton.mp hs, hhidden] at hvisible
    cases hvisible

end SkinMarkup
