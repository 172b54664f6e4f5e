import Mathlib.Data.List.Forall2
import SkinMarkup.Proofs.State.CopiedMarkup

/-!
# A copied state looks like its model

After a state was copied, the document has the same elements as before, with
attributes as `copiedEntries` and `declaredEntries` say. The new state shows what
its model shows, and every other state shows what it showed before:
`copied_of_createState`.
-/

namespace SkinMarkup

/-! ## Attributes of a copy -/

section

variable {model state name : Text} {entries : List (Text × Text)}

/-- The list of an element's states in a copy. -/
theorem valueIn?_copiedEntries (hname : Word.isStateList name = true) :
    valueIn? name (copiedEntries model state entries) =
      (valueIn? name entries).map fun value =>
        if (StateList.entries value).contains model then
          StateList.render (StateList.entries value ++ [state]) else value := by
  have hmore : ∀ e ∈ entries.filterMap fun entry =>
      (stemFor? model entry.1).map fun stem => (stem ++ '.' :: state, entry.2), e.1 ≠ name := by
    intro e he hsame
    obtain ⟨⟨other, value⟩, -, hcopy⟩ := List.mem_filterMap.mp he
    obtain ⟨stem, -, rfl⟩ := Option.map_eq_some_iff.mp hcopy
    subst hsame
    simp only [Word.isStateList, Bool.or_eq_true, beq_iff_eq] at hname
    rcases hname with hname | hname
    · exact isWord_includeIn.dot (by simp [← hname])
    · exact isWord_excludeFrom.dot (by simp [← hname])
  rw [copiedEntries]
  refine (valueIn?_append_of_not_mem hmore).trans ((valueIn?_map fun _ _ => rfl).trans ?_)
  simp only [hname, Bool.true_and]

theorem valueIn?_declaredEntries (hname : name ≠ Word.states) :
    valueIn? name (declaredEntries state entries) = valueIn? name entries := by
  rw [declaredEntries]
  split
  · refine (valueIn?_map fun _ _ => rfl).trans ?_
    simp [hname]
  · refine valueIn?_append_of_not_mem fun e he => ?_
    rw [List.mem_singleton.mp he]
    exact Ne.symm hname

end

/-! ## Visibility -/

section

variable {d : Dialect} {model state other : Text} {m m' : Membership}

/-- The lists of an element whose states were copied: a list that has the model
has the new state too. -/
structure CopiesLists (model state : Text) (m m' : Membership) : Prop where
  localName : m'.localName = m.localName
  includeIn : m'.includeIn = m.includeIn.map fun value =>
    if (StateList.entries value).contains model then
      StateList.render (StateList.entries value ++ [state]) else value
  excludeFrom : m'.excludeFrom = m.excludeFrom.map fun value =>
    if (StateList.entries value).contains model then
      StateList.render (StateList.entries value ++ [state]) else value

/-- The entries of a list in a copy. -/
theorem entries_copy (hstate : isStateName state = true) (model value : Text) :
    StateList.entries (if (StateList.entries value).contains model then
      StateList.render (StateList.entries value ++ [state]) else value) =
      if (StateList.entries value).contains model then StateList.entries value ++ [state]
      else StateList.entries value := by
  split
  · exact StateList.entries_concat hstate value
  · rfl

theorem contains_copy (hstate : isStateName state = true) (value : Text) (hother : other ≠ state) :
    (StateList.entries (if (StateList.entries value).contains model then
      StateList.render (StateList.entries value ++ [state]) else value)).contains other =
      (StateList.entries value).contains other := by
  rw [entries_copy hstate]
  split
  · simp [hother]
  · rfl

theorem contains_copy_self (hstate : isStateName state = true) {value : Text}
    (hfresh : state ∉ StateList.entries value) :
    (StateList.entries (if (StateList.entries value).contains model then
      StateList.render (StateList.entries value ++ [state]) else value)).contains state =
      (StateList.entries value).contains model := by
  rw [entries_copy hstate]
  split
  · next h => rw [h]; simp
  · next h =>
    rw [Bool.not_eq_true] at h
    rw [h, List.contains_eq_mem, decide_eq_false hfresh]

/-- **Copying a state changes nothing for another one.** -/
theorem CopiesLists.visibleIn_other (h : CopiesLists model state m m')
    (hstate : isStateName state = true) (hother : other ≠ state) :
    m'.visibleIn d other = m.visibleIn d other := by
  rw [Membership.visibleIn, Membership.visibleIn, h.localName, h.includeIn, h.excludeFrom]
  cases m.includeIn with
  | some included => simp only [Option.map_some, contains_copy hstate included hother]
  | none =>
    cases m.excludeFrom with
    | some excluded =>
      simp only [Option.map_some, Option.map_none, contains_copy hstate excluded hother]
    | none => rfl

/-- **A copy shows what its model shows.** -/
theorem CopiesLists.visibleIn_self (h : CopiesLists model state m m')
    (hstate : isStateName state = true) (hdot : '.' ∉ m.localName)
    (hincludeIn : ∀ value ∈ m.includeIn, state ∉ StateList.entries value)
    (hexcludeFrom : ∀ value ∈ m.excludeFrom, state ∉ StateList.entries value) :
    m'.visibleIn d state = m.visibleIn d model := by
  rw [Membership.visibleIn, Membership.visibleIn, h.localName, h.includeIn, h.excludeFrom,
    cutAt_eq_none_iff.mpr hdot]
  cases hincluded : m.includeIn with
  | some included =>
    simp only [Option.map_some, contains_copy_self hstate (hincludeIn included hincluded)]
  | none =>
    cases hexcluded : m.excludeFrom with
    | some excluded =>
      simp only [Option.map_some, Option.map_none,
        contains_copy_self hstate (hexcludeFrom excluded hexcluded)]
    | none => rfl

end

/-! ## Spots of a copy -/

namespace Markup

variable {w : Markup} {d : Dialect} {model state : Text}

/-- What stands at a spot after a state was copied. -/
def copySpot (model state : Text) (p : Spot Text) : Spot Text :=
  if p.inside then p else p.map (copyContent model state)

theorem map_copySpot_inside (level : Nat) (w : Markup) :
    (w.spots d everything true level).map (copySpot model state) =
      w.spots d everything true level := by
  conv => rhs; rw [← List.map_id (w.spots d everything true level)]
  refine List.map_congr_left fun p hp => ?_
  rw [copySpot, inside_of_mem_spots hp rfl]
  rfl

/-- **Copying a state copies it at every spot.** -/
theorem spots_copied (hcareful : Careful (copyJudge d model state) w) (gap : Text) (level : Nat) :
    (w.revise (copyJudge d model state) () gap).2.spots d everything false level =
      (w.spots d everything false level).map (copySpot model state) := by
  induction w generalizing gap level with
  | nil =>
    rw [revise, spots_text]
    rfl
  | inert event hinert rest ih =>
    cases htext : event.isText with
    | true =>
      rw [revise_text hinert htext]
      exact ih hcareful.rest _ level
    | false =>
      rw [revise_inert hinert htext, spots_text]
      exact ih hcareful.rest [] level
  | empty content rest ih =>
    have hrest := ih hcareful.rest_empty [] level
    cases hblock : d.isBlock content with
    | true =>
      rw [revise_empty_of_pass (by rw [copyJudge, hblock]; rfl), spots_text]
      simp [spots, hblock, everything, copySpot, hrest]
    | false =>
      have hjudge : copyJudge d model state () true content =
          ((), .write (copyContent model state content)) := by rw [copyJudge, hblock]; rfl
      have hname := (hcareful () true content _ List.mem_cons_self (by rw [hjudge])).name
      have hsame : d.isBlock (copyContent model state content) = false := by
        rw [← hblock, Dialect.isBlock, Dialect.isBlock, hname]
      rw [revise_empty_of_write hjudge, spots_text]
      simp [spots, hblock, hsame, everything, copySpot, Spot.map, hrest]
  | node content within close rest ihwithin ih =>
    have hrest := ih hcareful.rest_node [] level
    cases hblock : d.isBlock content with
    | true =>
      rw [revise_node_of_pass (by rw [copyJudge, hblock]; rfl), spots_text]
      simp only [spots, hblock, Bool.or_true, List.map_append, hrest]
      simp [everything, copySpot, map_copySpot_inside]
    | false =>
      have hjudge : copyJudge d model state () false content =
          ((), .write (copyContent model state content)) := by rw [copyJudge, hblock]; rfl
      have hname := (hcareful () false content _ List.mem_cons_self (by rw [hjudge])).name
      have hsame : d.isBlock (copyContent model state content) = false := by
        rw [← hblock, Dialect.isBlock, Dialect.isBlock, hname]
      have hwithin := ihwithin hcareful.inside [] (level + 1)
      rw [revise_node_of_write hjudge, spots_text]
      simp only [spots, hblock, hsame, Bool.or_false, List.map_append, hrest, hwithin]
      simp [everything, copySpot, Spot.map]

end Markup

/-! ## A copied state -/

/-- What becomes of the attributes of an element at a spot. -/
def copiedAt (model state : Text) (level : Nat) (inside : Bool) (entries : List (Text × Text)) :
    List (Text × Text) :=
  let entries := if inside then entries else copiedEntries model state entries
  if level = 0 then declaredEntries state entries else entries

/-- An element before and after a state was copied. -/
structure CopiedSpot (d : Dialect) (model state : Text) (p p' : Spot Tag) : Prop where
  level : p'.level = p.level
  inside : p'.inside = p.inside
  name : p'.element.name = p.element.name
  entries : p'.element.entries = copiedAt model state p.level p.inside p.element.entries
  /-- The new state shows what its model shows. -/
  looks : p.inside = false → '.' ∉ p.element.localName →
    p'.element.isVisible d (some state) = p.element.isVisible d (some model)
  /-- Every other state shows what it showed. -/
  keeps : ∀ other, other ≠ some state →
    p'.element.isVisible d other = p.element.isVisible d other

section

variable {d : Dialect} {model state : Text}

theorem valueIn?_copiedAt {name : Text} (hname : Word.isStateList name = true) (level : Nat)
    (inside : Bool) (entries : List (Text × Text)) :
    valueIn? name (copiedAt model state level inside entries) =
      valueIn? name (if inside then entries else copiedEntries model state entries) := by
  rw [copiedAt]
  split
  · refine valueIn?_declaredEntries ?_
    rintro rfl
    cases hname
  · rfl

/-- What the attributes of an element say about its copy. -/
theorem copiedSpot_of_entries (hmodel : isStateName model = true) (hstate : isStateName state = true)
    {p p' : Spot Tag} (hlevel : p'.level = p.level) (hinside : p'.inside = p.inside)
    (hname : p'.element.name = p.element.name)
    (hentries : p'.element.entries = copiedAt model state p.level p.inside p.element.entries)
    (hfresh : ∀ e ∈ p.element.entries, Word.isStateList e.1 = true →
      state ∉ StateList.entries e.2) : CopiedSpot d model state p p' := by
  have hlocal : p'.element.localName = p.element.localName := congrArg localOf hname
  have hlists : p.inside = false →
      CopiesLists model state (Membership.ofTag p.element) (Membership.ofTag p'.element) := by
    intro hout
    refine ⟨hlocal, ?_, ?_⟩
    · simp only [Membership.ofTag, Tag.value?_eq, hentries]
      rw [valueIn?_copiedAt rfl, hout]
      exact valueIn?_copiedEntries rfl
    · simp only [Membership.ofTag, Tag.value?_eq, hentries]
      rw [valueIn?_copiedAt rfl, hout]
      exact valueIn?_copiedEntries rfl
  have hactive : ∀ {name : Text}, isStateName name = true → activeState (some name) = some name := by
    intro name hname
    simp [activeState, ne_nil_of_isStateName hname]
  refine ⟨hlevel, hinside, hname, hentries, fun hout hdot => ?_, fun other hother => ?_⟩
  · rw [Tag.isVisible, Tag.isVisible, hactive hstate, hactive hmodel]
    refine (hlists hout).visibleIn_self hstate hdot (fun value hvalue => ?_) fun value hvalue => ?_
    · rw [Membership.ofTag, Tag.value?_eq] at hvalue
      exact hfresh _ (mem_of_valueIn? hvalue) rfl
    · rw [Membership.ofTag, Tag.value?_eq, Tag.value?_eq] at hvalue
      exact hfresh _ (mem_of_valueIn? hvalue) rfl
  · rw [Tag.isVisible, Tag.isVisible]
    cases hother' : activeState other with
    | none => rfl
    | some chosen =>
      have hne : chosen ≠ state := by
        rintro rfl
        exact hother (Option.filter_eq_some_iff.mp hother').1
      cases hin : p.inside with
      | false => exact (hlists hin).visibleIn_other hstate hne
      | true =>
        have hsame : Membership.ofTag p'.element = Membership.ofTag p.element := by
          simp only [Membership.ofTag, hlocal, Tag.value?_eq, hentries, hin]
          rw [valueIn?_copiedAt rfl, valueIn?_copiedAt rfl]
          rfl
        rw [hsame]

/-- What an element says after a state was copied. -/
def Spot.copyElement (model state : Text) (p : Spot (Text × List (Text × Text))) :
    Spot (Text × List (Text × Text)) :=
  ⟨p.level, p.inside, p.element.1, copiedAt model state p.level p.inside p.element.2⟩

/-- Elements that correspond to each other were copied. -/
theorem forall₂_copiedSpot (hmodel : isStateName model = true) (hstate : isStateName state = true)
    {before after : List (Spot Tag)}
    (heq : after.map (Spot.map Tag.element) =
      (before.map (Spot.map Tag.element)).map (Spot.copyElement model state))
    (hfresh : ∀ p ∈ before, ∀ e ∈ p.element.entries, Word.isStateList e.1 = true →
      state ∉ StateList.entries e.2) :
    List.Forall₂ (CopiedSpot d model state) before after := by
  have hsame : List.Forall₂ (fun p p' : Spot Tag =>
      (p.map Tag.element).copyElement model state = p'.map Tag.element) before after := by
    have hall : List.Forall₂ (· = ·)
        (before.map (Spot.copyElement model state ∘ Spot.map Tag.element))
        (after.map (Spot.map Tag.element)) := by
      rw [List.forall₂_eq_eq_eq, ← List.map_map]
      exact heq.symm
    exact List.forall₂_map_right_iff.mp (List.forall₂_map_left_iff.mp hall)
  refine List.Forall₂.imp (fun p p' h => ?_) ((List.forall₂_and_left before after).mpr ⟨hfresh, hsame⟩)
  obtain ⟨hnew, hspot⟩ := h
  simp only [Spot.copyElement, Spot.map, Tag.element, Spot.mk.injEq, Prod.mk.injEq] at hspot
  exact copiedSpot_of_entries hmodel hstate hspot.1.symm hspot.2.1.symm hspot.2.2.1.symm
    hspot.2.2.2.symm hnew

end

namespace Markup

variable {w : Markup} {d : Dialect} {model state : Text}

/-- What the copy of a start tag says. -/
theorem elementOf_copied {st : StartTag} (h : st.Ready) (hstate : isStateName state = true)
    (hfresh : ¬ state <:+: st.content) (model : Text) :
    elementOf (st.copied model state).content =
      ((elementOf st.content).1, copiedEntries model state (elementOf st.content).2) := by
  obtain ⟨entries, hentries⟩ := Option.isSome_iff_exists.mp h.readable
  rw [elementOf_content h.listed.tidy hentries]
  exact elementOf_content (h.listed.tidy_copied hstate hfresh)
    (h.listed.entriesOf?_copied hstate hfresh hentries h.plain)

/-- What the start tag of a root with one more state says. -/
theorem elementOf_declared {st : StartTag} (h : st.Root state) (hstate : isStateName state = true) :
    elementOf (st.declared state).content =
      ((elementOf st.content).1, declaredEntries state (elementOf st.content).2) := by
  obtain ⟨entries, hentries⟩ := Option.isSome_iff_exists.mp h.readable
  rw [elementOf_content h.tidy hentries, elementOf_content (h.tidy.declared h.clear hstate)
    (h.tidy.entriesOf?_declared h.clear hstate hentries h.plain), StartTag.name_declared]

/-- A fresh state is in no list. -/
theorem Ready.not_mem_entries (hready : w.Ready) (hfresh : ¬ state <:+: w.source) {selfClosing : Bool}
    {content : Text} (hmem : Event.start selfClosing content ∈ w.events) :
    ∀ e ∈ (elementOf content).2, Word.isStateList e.1 = true → state ∉ StateList.entries e.2 := by
  obtain ⟨st, rfl, hst⟩ := hready selfClosing content hmem
  obtain ⟨entries, hentries⟩ := Option.isSome_iff_exists.mp hst.readable
  rw [elementOf_content hst.listed.tidy hentries]
  intro e he hlist
  obtain ⟨p, hp, hname, hread⟩ := hst.listed.tidy.regular.exists_piece hentries he
  rw [unescape_of_not_mem (hst.plain p hp (hname ▸ hlist)), Except.ok.injEq] at hread
  rw [← hread]
  exact StartTag.not_mem_entries_of_fresh (fresh_of_mem_events hfresh hmem) hp

/-- What stands at a spot below the root after a state was copied. -/
theorem Ready.map_copySpot (hready : w.Ready) (hstate : isStateName state = true)
    (hfresh : ¬ state <:+: w.source) {p : Spot Text} (hp : p ∈ w.spots d everything false 0)
    (hlevel : 0 < p.level) :
    (copySpot model state p).map elementOf = (p.map elementOf).copyElement model state := by
  obtain ⟨selfClosing, hmem⟩ := mem_events_of_mem_spots hp
  obtain ⟨st, hcontent, hst⟩ := hready selfClosing p.element hmem
  have hnew := fresh_of_mem_events hfresh hmem
  rw [← hcontent] at hnew
  cases hinside : p.inside with
  | true => simp [copySpot, Spot.copyElement, Spot.map, copiedAt, hinside, Nat.ne_of_gt hlevel]
  | false =>
    have hcopy := elementOf_copied hst hstate hnew model
    rw [← copyContent_content hst.listed.tidy, hcontent] at hcopy
    simp [copySpot, Spot.copyElement, Spot.map, copiedAt, hinside, Nat.ne_of_gt hlevel, hcopy]

section

variable {selfClosing : Bool} {st : StartTag} (h : w.Document) (hready : w.Ready)
  (hstate : isStateName state = true) (hfresh : ¬ state <:+: w.source)
  (hfirst : w.first? = some (selfClosing, st.content)) (hst : st.Ready) (hroot : st.Root state)

include h hready hstate hfresh hfirst hst hroot

/-- **What the elements of a document say after a state was copied.** -/
theorem spots_declared_copied (d : Dialect) (model : Text) :
    (((w.copied d model state).declared state).spots d everything false 0).map
        (Spot.map elementOf) =
      ((w.spots d everything false 0).map (Spot.map elementOf)).map
        (Spot.copyElement model state) := by
  obtain ⟨st', hfirst', hroot', hst'⟩ :=
    exists_root_copied hstate hfresh hfirst hst hroot d model
  obtain ⟨below, hbelow, hspots⟩ := h.single.exists_below hfirst d everything
  obtain ⟨below', -, hspots'⟩ :=
    (h.copied hready hstate hfresh).single.exists_below hfirst' d everything
  have hname : st'.name = st.name := by
    rw [hst']
    split <;> rfl
  have hblock : d.isBlock st'.content = d.isBlock st.content := by
    rw [hroot'.tidy.regular.isBlock_content, hroot.tidy.regular.isBlock_content, hname]
  have hblock' : d.isBlock (st'.declared state).content = d.isBlock st'.content := by
    rw [(hroot'.tidy.declared hroot'.clear hstate).regular.isBlock_content,
      hroot'.tidy.regular.isBlock_content, StartTag.name_declared]
  have hold := hspots st.content rfl rfl
  have hnew := hspots' st'.content rfl rfl
  rw [setFirst_eq_self hfirst] at hold
  -- Copying leaves the root where it is, so what stands below it is copied.
  rw [setFirst_eq_self hfirst', copied, spots_copied (hready.careful_copy hstate hfresh d model),
    hold, List.map_cons] at hnew
  have hcopies : below.map (copySpot model state) = below' := (List.cons.inj hnew).2
  rw [declared_of_first hroot'.tidy hfirst', hspots' _ hblock' rfl, hold, ← hcopies]
  simp only [List.map_cons, List.map_map]
  congr 1
  · have hrootFresh := fresh_of_mem_events hfresh (mem_events_of_first hfirst)
    have hroots : elementOf st'.content = ((elementOf st.content).1,
        if d.isBlock st.content then (elementOf st.content).2
        else copiedEntries model state (elementOf st.content).2) := by
      rw [hst']
      split
      · rfl
      · exact elementOf_copied hst hstate hrootFresh model
    rw [hblock, Spot.map, elementOf_declared hroot' hstate, hroots]
    rfl
  · refine List.map_congr_left fun p hp => ?_
    exact hready.map_copySpot hstate hfresh (hold ▸ List.mem_cons_of_mem _ hp) (hbelow p hp)

end

end Markup

/-- **A copied state looks like its model.** The document has the same elements
as before, with the attributes for the new state, and no other state changes. -/
theorem copied_of_createState {t model state : Text} {root : Tag} (h : Editable t root)
    (hdoctype : NoDoctype t) (hparse : parseStrict t = .ok root) (hmodel : isStateName model = true)
    (hstate : isStateName state = true) (hfresh : ¬ state <:+: t)
    (hsolid : root.head.attributes = [] → root.name.getLast? ≠ some '\u1680')
    (d : Dialect) (allStates : List Text) :
    (createState d allStates state (some model) t).complete = true ∧
      ∃ root', parseStrict (createState d allStates state (some model) t).text = .ok root' ∧
        List.Forall₂ (CopiedSpot d model state) (root.spots d everything false 0)
          (root'.spots d everything false 0) := by
  obtain ⟨w, hsource, hw, htags⟩ := h.exists_markup hdoctype hparse
  have hready := h.ready hw hsource htags
  obtain ⟨selfClosing, st, hfirst, hst, hroot⟩ := h.exists_root hw hsource htags hsolid hfresh
  subst hsource
  have hcreate := Markup.createState_source hw hready hstate hfresh hfirst hst hroot (d := d)
    (ne_nil_of_isStateName hmodel) allStates
  have hnew := Markup.document_copied hw hready hstate hfresh hfirst hst hroot d model
  obtain ⟨root', hparse', htags'⟩ := hnew.exists_parseStrict
  rw [hcreate]
  refine ⟨rfl, root', hparse', forall₂_copiedSpot hmodel hstate ?_ ?_⟩
  · rw [Markup.element_spots_of_tags respects_everything htags',
      Markup.element_spots_of_tags respects_everything htags]
    exact Markup.spots_declared_copied hw hready hstate hfresh hfirst hst hroot d model
  · intro p hp
    have hmem : p.map Tag.element ∈ (w.spots d everything false 0).map (Spot.map elementOf) := by
      rw [← Markup.element_spots_of_tags respects_everything htags]
      exact List.mem_map_of_mem hp
    obtain ⟨q, hq, heq⟩ := List.mem_map.mp hmem
    obtain ⟨selfClosing', hevent⟩ := Markup.mem_events_of_mem_spots hq
    have helement : elementOf q.element = p.element.element := congrArg Spot.element heq
    have hlists := hready.not_mem_entries hfresh hevent
    rw [helement] at hlists
    exact hlists

/-- An element in two states with an attribute for one of them, a block of
declarations, and an element that is missing from one state. -/
theorem copied_of_createState_held :
    let t := "<e:Skin states = 'up'><a includeIn=' up,x' y.up='&lt;'/>
      <Declarations y.up='1'/><b excludeFrom=\"up\"/></e:Skin>".toList
    let up := ['u', 'p']
    let held := ['h', 'e', 'l', 'd']
    ∃ root, (Editable t root ∧ NoDoctype t ∧ parseStrict t = .ok root ∧ isStateName up = true ∧
        isStateName held = true ∧ ¬ held <:+: t ∧
        (root.head.attributes = [] → root.name.getLast? ≠ some '\u1680')) ∧
      (createState Dialect.standard [up] held (some up) t).complete = true ∧
      ∃ root', parseStrict (createState Dialect.standard [up] held (some up) t).text = .ok root' ∧
        List.Forall₂ (CopiedSpot Dialect.standard up held)
          (root.spots Dialect.standard everything false 0)
          (root'.spots Dialect.standard everything false 0) := by
  intro t up held
  have hup : isStateName up = true := by decide
  have hheld : isStateName held = true := by decide
  have hany : ((parseStrict t).toOption.any fun root => decide (Editable t root) &&
      decide (NoDoctype t) && decide (¬ held <:+: t) &&
      decide (root.head.attributes = [] → root.name.getLast? ≠ some '\u1680')) = true := by
    decide +kernel
  obtain ⟨root, hparse, hproperties⟩ := exists_of_any_toOption hany
  simp only [Bool.and_eq_true, decide_eq_true_eq] at hproperties
  obtain ⟨⟨⟨heditable, hdoctype⟩, hfresh⟩, hsolid⟩ := hproperties
  exact ⟨root, ⟨heditable, hdoctype, hparse, hup, hheld, hfresh, hsolid⟩,
    copied_of_createState heditable hdoctype hparse hup hheld hfresh hsolid Dialect.standard [up]⟩

/-- A document type declaration in lower case can hide the root from the scan,
and a new list does not go behind a name that ends in a blank. -/
theorem not_copied_of_createState :
    let hidden := "<!doctype x <<a></b>>><r/>".toList
    let blank := "<r\u1680/>".toList
    (∃ root, Editable hidden root ∧ containsWord "<!DOCTYPE".toList hidden = false ∧
        parseStrict hidden = .ok root ∧ isStateName ['a'] = true ∧ isStateName ['q'] = true ∧
        ¬ ['q'] <:+: hidden ∧
        (createState Dialect.standard [['a']] ['q'] (some ['a']) hidden).complete = false) ∧
      ∃ root, Editable blank root ∧ containsWord "<!DOCTYPE".toList blank = false ∧
        parseStrict blank = .ok root ∧ isStateName ['a'] = true ∧ isStateName ['q'] = true ∧
        ¬ ['q'] <:+: blank ∧
        ∀ root', parseStrict (createState Dialect.standard [['a']] ['q'] (some ['a']) blank).text ≠
          .ok root' := by
  intro hidden blank
  have hhidden : ((parseStrict hidden).toOption.any fun root => decide (Editable hidden root)) =
      true := by
    decide +kernel
  have hblank : ((parseStrict blank).toOption.any fun root => decide (Editable blank root)) =
      true := by
    decide +kernel
  have hnone : (parseStrict
      (createState Dialect.standard [['a']] ['q'] (some ['a']) blank).text).toOption.isNone = true := by
    decide +kernel
  obtain ⟨root₁, hparse₁, heditable₁⟩ := exists_of_any_toOption hhidden
  obtain ⟨root₂, hparse₂, heditable₂⟩ := exists_of_any_toOption hblank
  refine ⟨⟨root₁, of_decide_eq_true heditable₁, by decide +kernel, hparse₁, by decide, by decide,
    by decide +kernel, by decide +kernel⟩, ⟨root₂, of_decide_eq_true heditable₂, by decide +kernel,
    hparse₂, by decide, by decide, by decide +kernel, fun root' hparse' => ?_⟩⟩
  rw [hparse'] at hnone
  cases hnone

end SkinMarkup
