import SkinMarkup.Proofs.State.Copying
import SkinMarkup.Proofs.State.RenamedMarkup

/-!
# A renamed state shows what it showed

After a state got another name, the document has the same elements as before. By
its new name the state shows what it showed by the old one, and every other state
shows what it showed before: `visible_of_renameState`. Two kinds of elements are
left out: those that are pinned to the state by a suffix of their names, and
declarations of states. Suffixes of element names are not renamed, and neither are
the lists of the first declaration (`not_visible_of_renameState`).
-/

namespace SkinMarkup

/-! ## Visibility -/

section

variable {d : Dialect} {old new other : Text} {value value' : Option Text} {m m' : Membership}

/-- What a list says about a state does not depend on how it is written. -/
theorem visibleIn_congr {state state' : Text} (hname : m'.localName = m.localName)
    (hdot : '.' ∈ m.localName → state' = state)
    (hincludeIn : m'.includeIn.map (fun v => (StateList.entries v).contains state') =
      m.includeIn.map fun v => (StateList.entries v).contains state)
    (hexcludeFrom : m'.excludeFrom.map (fun v => (StateList.entries v).contains state') =
      m.excludeFrom.map fun v => (StateList.entries v).contains state) :
    m'.visibleIn d state' = m.visibleIn d state := by
  rw [Membership.visibleIn, Membership.visibleIn, hname]
  cases hcut : cutAt '.' m.localName with
  | some parts =>
    have hparts : cutAt '.' m.localName = some (parts.1, parts.2) := hcut
    have hmem : '.' ∈ m.localName := by
      rw [cutAt_eq_some hparts]
      simp
    rw [hdot hmem]
  | none =>
    cases hi : m.includeIn <;> cases hi' : m'.includeIn <;> cases he : m.excludeFrom <;>
      cases he' : m'.excludeFrom <;> simp_all

theorem contains_map_renamed {states : List Text} (hother : other ≠ old) (hnew : other ≠ new) :
    (states.map (renamed old new)).contains other = states.contains other := by
  rw [List.contains_eq_mem, List.contains_eq_mem, decide_eq_decide, List.mem_map]
  constructor
  · rintro ⟨x, hx, heq⟩
    unfold renamed at heq
    split at heq
    · exact absurd heq.symm hnew
    · exact heq ▸ hx
  · intro hmem
    exact ⟨other, hmem, if_neg hother⟩

theorem contains_map_renamed_new {states : List Text} (hfresh : new ∉ states) :
    (states.map (renamed old new)).contains new = states.contains old := by
  rw [List.contains_eq_mem, List.contains_eq_mem, decide_eq_decide, List.mem_map]
  constructor
  · rintro ⟨x, hx, heq⟩
    unfold renamed at heq
    split at heq
    · next hx' => exact hx' ▸ hx
    · exact absurd (heq ▸ hx) hfresh
  · intro hmem
    exact ⟨old, hmem, if_pos rfl⟩

theorem ListRenamed.contains_eq (h : ListRenamed old new value value') (state : Text) :
    value'.map (fun v => (StateList.entries v).contains state) =
      value.map fun v => ((StateList.entries v).map (renamed old new)).contains state := by
  have hmap := congrArg (Option.map fun states : List Text => states.contains state) h
  rw [Option.map_map, Option.map_map] at hmap
  exact hmap

/-- **A list that was touched says the same about every other state.** -/
theorem ListTouched.contains_other (h : ListTouched old new value value') (hother : other ≠ old)
    (hnew : other ≠ new) :
    value'.map (fun v => (StateList.entries v).contains other) =
      value.map fun v => (StateList.entries v).contains other := by
  rcases h with h | h
  · have hmap := congrArg (Option.map fun states : List Text => states.contains other) h
    rw [Option.map_map, Option.map_map] at hmap
    exact hmap
  · rw [h.contains_eq]
    congr 1
    funext v
    exact contains_map_renamed hother hnew

/-- **A renamed list says about the new name what it said about the old one.** -/
theorem ListRenamed.contains_new (h : ListRenamed old new value value')
    (hfresh : ∀ v ∈ value, new ∉ StateList.entries v) :
    value'.map (fun v => (StateList.entries v).contains new) =
      value.map fun v => (StateList.entries v).contains old := by
  rw [h.contains_eq]
  cases value with
  | none => rfl
  | some v => rw [Option.map_some, Option.map_some, contains_map_renamed_new (hfresh v rfl)]

end

/-! ## Elements before and after -/

/-- An element before and after a state got another name. -/
structure RenamedSpot (d : Dialect) (old new : Text) (p p' : Spot Tag) : Prop where
  level : p'.level = p.level
  inside : p'.inside = p.inside
  name : p'.element.name = p.element.name
  /-- The state shows by its new name what it showed by the old one. -/
  shows : p.inside = false → '.' ∉ p.element.localName → p.element.localName ≠ d.state →
    p'.element.isVisible d (some new) = p.element.isVisible d (some old)
  /-- Every other state shows what it showed. -/
  keeps : ∀ other, other ≠ some old → other ≠ some new →
    p'.element.isVisible d other = p.element.isVisible d other

theorem renamedSpot_of_element {d : Dialect} {old new : Text} {p p' : Spot Tag}
    (hold : isStateName old = true) (hnew : isStateName new = true)
    (h : Markup.SpotRel (RenamedElement d old new) (p.map Tag.element) (p'.map Tag.element))
    (hfresh : ∀ e ∈ p.element.entries, Word.isStateList e.1 = true →
      new ∉ StateList.entries e.2) : RenamedSpot d old new p p' := by
  have helement : RenamedElement d old new p.inside p.element.element p'.element.element := h.related
  have hname : p'.element.name = p.element.name := helement.name
  have hlocal : p'.element.localName = p.element.localName := congrArg localOf hname
  have hvalue : ∀ {word v : Text}, Word.isStateList word = true →
      v ∈ valueIn? word p.element.entries → new ∉ StateList.entries v :=
    fun hword hv => hfresh _ (mem_of_valueIn? hv) hword
  have hactive : ∀ {name : Text}, isStateName name = true → activeState (some name) = some name := by
    intro name hname
    simp [activeState, ne_nil_of_isStateName hname]
  refine ⟨h.level, h.inside, hname, fun hout hdot hstate => ?_, fun other hother hother' => ?_⟩
  · rw [Tag.isVisible, Tag.isVisible, hactive hnew, hactive hold]
    have hlists := helement.renamed hout hstate
    refine visibleIn_congr hlocal (fun hmem => absurd hmem hdot) ?_ ?_
    · rw [Membership.ofTag, Membership.ofTag]
      simp only [Tag.value?_eq]
      exact (hlists _ rfl).contains_new fun v hv => hvalue rfl hv
    · rw [Membership.ofTag, Membership.ofTag]
      simp only [Tag.value?_eq]
      exact (hlists _ rfl).contains_new fun v hv => hvalue rfl hv
  · rw [Tag.isVisible, Tag.isVisible]
    cases hchosen : activeState other with
    | none => rfl
    | some chosen =>
      have hsome : other = some chosen := (Option.filter_eq_some_iff.mp hchosen).1
      have hne : chosen ≠ old ∧ chosen ≠ new :=
        ⟨fun heq => hother (heq ▸ hsome), fun heq => hother' (heq ▸ hsome)⟩
      refine visibleIn_congr hlocal (fun _ => rfl) ?_ ?_
      · rw [Membership.ofTag, Membership.ofTag]
        simp only [Tag.value?_eq]
        exact (helement.touched _ rfl).contains_other hne.1 hne.2
      · rw [Membership.ofTag, Membership.ofTag]
        simp only [Tag.value?_eq]
        exact (helement.touched _ rfl).contains_other hne.1 hne.2

/-! ## A document -/

/-- A name that is nowhere in a document is in the way of no other. -/
theorem Markup.Ready.relabelable {w : Markup} {new : Text} (h : w.Ready)
    (hfresh : ¬ new <:+: w.source) (old : Text) : w.Relabelable old new := by
  intro selfClosing content hmem stem hne _ hnames
  obtain ⟨st, rfl, hst⟩ := h selfClosing content hmem
  rw [hst.listed.tidy.ofContent_content] at hnames
  obtain ⟨p, hp, hname⟩ := List.mem_map.mp hnames
  have hpart : new <:+: p.name := hname ▸ ⟨stem ++ ['.'], [], by simp⟩
  exact absurd (hpart.trans (StartTag.part_of_mem hp).1)
    (Markup.fresh_of_mem_events hfresh hmem)

/-- A name that is nowhere in a document is in none of its lists. -/
theorem Markup.Ready.fresh_spots {w : Markup} {new : Text} {root : Tag} (h : w.Ready)
    (hfresh : ¬ new <:+: w.source) (htags : w.tags [] = [root.bare]) (d : Dialect) :
    ∀ p ∈ root.spots d everything false 0, ∀ e ∈ p.element.entries,
      Word.isStateList e.1 = true → new ∉ StateList.entries e.2 := by
  intro p hp
  have hmem : p.map Tag.element ∈ (w.spots d everything false 0).map (Spot.map elementOf) := by
    rw [← Markup.element_spots_of_tags respects_everything htags]
    exact List.mem_map_of_mem hp
  obtain ⟨q, hq, heq⟩ := List.mem_map.mp hmem
  obtain ⟨selfClosing, hevent⟩ := Markup.mem_events_of_mem_spots hq
  have helement : elementOf q.element = p.element.element := congrArg Spot.element heq
  have hlists := h.not_mem_entries hfresh hevent
  rw [helement] at hlists
  exact hlists

/-- **A renamed state shows what it showed.** The document has the same elements
as before, and no other state changes. -/
theorem visible_of_renameState {t old new : Text} {root : Tag} (h : Editable t root)
    (hdoctype : NoDoctype t) (hparse : parseStrict t = .ok root) (hold : isStateName old = true)
    (hnew : isStateName new = true) (hfresh : ¬ new <:+: t) (d : Dialect) :
    (renameState d old new t).complete = true ∧
      ∃ root', parseStrict (renameState d old new t).text = .ok root' ∧
        List.Forall₂ (RenamedSpot d old new) (root.spots d everything false 0)
          (root'.spots d everything false 0) := by
  obtain ⟨w, hsource, hw, htags⟩ := h.exists_markup hdoctype hparse
  have hready := h.ready hw hsource htags
  obtain ⟨selfClosing, st, hfirst, hst, hdeclaring⟩ := h.exists_declaring hw hsource htags
  subst hsource
  obtain ⟨w', hw', hrename, hspots⟩ := hw.exists_renamed hready hold hnew
    (hready.relabelable hfresh old) hfirst hst hdeclaring d
  obtain ⟨root', hparse', htags'⟩ := hw'.exists_parseStrict
  rw [hrename]
  refine ⟨rfl, root', hparse', ?_⟩
  have helements := Markup.forall₂_spots_of_tags (R := Markup.SpotRel (RenamedElement d old new))
    respects_everything respects_everything htags htags'
    (hspots.imp fun p p' hp => ⟨hp.level, hp.inside, hp.related⟩)
  have hlists := hready.fresh_spots hfresh htags d
  refine List.Forall₂.imp (fun p p' hp => ?_)
    ((List.forall₂_and_left _ _).mpr ⟨hlists, helements⟩)
  exact renamedSpot_of_element hold hnew hp.2 hp.1

/-- Both lists of states, an attribute for a state, a declaration, a block of
declarations and a state to start in. -/
theorem visible_of_renameState_held :
    let t := "<e:Skin states = 'up,x' currentState=' up'><State name=\"up\"/>
      <a includeIn=' up,x' y.up='&lt;'/><Declarations includeIn='up'/>
      <b excludeFrom=\"up\"/></e:Skin>".toList
    let up := ['u', 'p']
    let held := ['h', 'e', 'l', 'd']
    ∃ root, (Editable t root ∧ NoDoctype t ∧ parseStrict t = .ok root ∧ isStateName up = true ∧
        isStateName held = true ∧ ¬ held <:+: t) ∧
      (renameState Dialect.standard up held t).complete = true ∧
      ∃ root', parseStrict (renameState Dialect.standard up held t).text = .ok root' ∧
        List.Forall₂ (RenamedSpot Dialect.standard up held)
          (root.spots Dialect.standard everything false 0)
          (root'.spots Dialect.standard everything false 0) := by
  intro t up held
  have hup : isStateName up = true := by decide
  have hheld : isStateName held = true := by decide
  have hany : ((parseStrict t).toOption.any fun root => decide (Editable t root) &&
      decide (NoDoctype t) && decide (¬ held <:+: t)) = true := by
    decide +kernel
  obtain ⟨root, hparse, hproperties⟩ := exists_of_any_toOption hany
  simp only [Bool.and_eq_true, decide_eq_true_eq] at hproperties
  obtain ⟨⟨heditable, hdoctype⟩, hfresh⟩ := hproperties
  exact ⟨root, ⟨heditable, hdoctype, hparse, hup, hheld, hfresh⟩,
    visible_of_renameState heditable hdoctype hparse hup hheld hfresh Dialect.standard⟩

/-- The elements of a document that can be edited, in document order, by whether
they are visible in a state. -/
def visibilities (d : Dialect) (state t : Text) : Option (List Bool) :=
  (parseStrict t).toOption.bind fun root =>
    if Editable t root then
      some ((root.spots d everything false 0).map fun p => p.element.isVisible d (some state))
    else none

/-- What is left out: an element that is pinned to the state by its name, and one
that declares the state and lists it, can be seen in the state but not in the
state by its new name. -/
theorem not_visible_of_renameState :
    let up := ['u', 'p']
    let held := ['h', 'e', 'l', 'd']
    ∀ t ∈ ["<Skin><Rect.up/></Skin>".toList,
        "<Skin><State name='up' includeIn='up'/></Skin>".toList],
      NoDoctype t ∧ isStateName up = true ∧ isStateName held = true ∧ ¬ held <:+: t ∧
        visibilities Dialect.standard up t = some [true, true] ∧
        visibilities Dialect.standard held (renameState Dialect.standard up held t).text =
          some [true, false] := by
  intro up held t ht
  simp only [List.mem_cons, List.not_mem_nil, or_false] at ht
  rcases ht with rfl | rfl
  · exact ⟨by decide +kernel, by decide, by decide, by decide +kernel, by decide +kernel,
      by decide +kernel⟩
  · exact ⟨by decide +kernel, by decide, by decide, by decide +kernel, by decide +kernel,
      by decide +kernel⟩

end SkinMarkup
