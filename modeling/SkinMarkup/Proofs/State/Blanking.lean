import SkinMarkup.Proofs.State.BlankMarkup
import SkinMarkup.Proofs.State.RenamedMarkup

/-!
# A blank state is blank

After a blank state was created, the document has the same elements as before. No
component directly below the root can be seen in the new state, but for one that
is named as the root of a skin. Every other state shows what it showed, the list
on the root has the new state, and all other start tags are as they were:
`blank_of_createState`.
-/

namespace SkinMarkup

/-! ## Elements before and after -/

/-- An element and its start tag before and after a blank state was created. -/
structure BlankSite (d : Dialect) (allStates : List Text) (state : Text)
    (x x' : Site Tag × Token) : Prop where
  level : x'.1.level = x.1.level
  standing : x'.1.standing = x.1.standing
  name : x'.1.element.name = x.1.element.name
  /-- The new state shows no component directly below the root. -/
  hidden : d.isScoped x.1.standing x.1.element.name = true → x.1.element.localName ≠ d.skin →
    x'.1.element.isVisible d (some state) = false
  /-- The other states show what they showed. -/
  keeps : ∀ other ∈ allStates,
    x'.1.element.isVisible d (some other) = x.1.element.isVisible d (some other)
  declares : x.1.level = 0 → x'.1.element.entries = declaredEntries state x.1.element.entries
  same : x.1.level ≠ 0 → d.isScoped x.1.standing x.1.element.name = false → x'.2.text = x.2.text

/-- What becomes of the start tag at a site. -/
inductive BlankElement (d : Dialect) (allStates : List Text) (state : Text) :
    (p p' : Site (Bool × Text)) → Prop where
  /-- The root gets one more state. -/
  | root (standing : Standing) (selfClosing : Bool) (content content' : Text)
    (hstanding : standing ≠ .direct)
    (helement : elementOf content' =
      ((elementOf content).1, declaredEntries state (elementOf content).2)) :
    BlankElement d allStates state ⟨0, standing, selfClosing, content⟩
      ⟨0, standing, selfClosing, content'⟩
  /-- A component directly below the root is kept out of the new state. -/
  | component (level : Nat) (standing : Standing) (selfClosing : Bool) (content content' : Text)
    (hlevel : level ≠ 0) (hscoped : d.isScoped standing (elementOf content).1 = true)
    (hname : (elementOf content').1 = (elementOf content).1)
    (hlists : ScopedOut allStates state (valueIn? Word.includeIn (elementOf content).2)
      (valueIn? Word.excludeFrom (elementOf content).2)
      (valueIn? Word.includeIn (elementOf content').2)
      (valueIn? Word.excludeFrom (elementOf content').2)) :
    BlankElement d allStates state ⟨level, standing, selfClosing, content⟩
      ⟨level, standing, selfClosing, content'⟩
  | same (level : Nat) (standing : Standing) (selfClosing : Bool) (content : Text)
    (hlevel : level ≠ 0) (hscoped : d.isScoped standing (elementOf content).1 = false) :
    BlankElement d allStates state ⟨level, standing, selfClosing, content⟩
      ⟨level, standing, selfClosing, content⟩

theorem Dialect.isScoped_of_ne {d : Dialect} {standing : Standing} (h : standing ≠ .direct)
    (name : Text) : d.isScoped standing name = false := by
  rw [isScoped, decide_eq_false h]
  rfl

/-- What stands at a site of markup, as it is read and as it is written. -/
def Site.read (p : Site (Bool × Text)) : Site (Text × List (Text × Text)) × Text :=
  (p.map fun e => elementOf e.2, (Event.start p.element.1 p.element.2).source)

/-- What stands at a site of a tree, as it is read and as it is written. -/
def Site.shown (x : Site Tag × Token) : Site (Text × List (Text × Text)) × Text :=
  (x.1.map Tag.element, x.2.text)

section

variable {d : Dialect} {allStates : List Text} {state : Text} {x x' : Site Tag × Token}
  {p p' : Site (Bool × Text)}

theorem Site.shown_eq_read_iff : Site.shown x = p.read ↔
    x.1.level = p.level ∧ x.1.standing = p.standing ∧
      x.1.element.element = elementOf p.element.2 ∧
      x.2.text = (Event.start p.element.1 p.element.2).source := by
  simp only [Site.shown, Site.read, Site.map, Prod.mk.injEq, Site.mk.injEq, and_assoc]

/-- Whether an element is visible can be read off its start tag. -/
theorem Site.isVisible_of_shown (h : Site.shown x = p.read) {s : Text} (hs : isStateName s = true) :
    x.1.element.isVisible d (some s) =
      (Membership.ofElement (elementOf p.element.2)).visibleIn d s := by
  rw [Tag.isVisible_eq (ne_nil_of_isStateName hs), (Site.shown_eq_read_iff.mp h).2.2.1]

namespace BlankElement

variable (h : BlankElement d allStates state p p')

include h

theorem level_eq : p'.level = p.level := by
  cases h <;> rfl

theorem standing_eq : p'.standing = p.standing := by
  cases h <;> rfl

theorem name_eq : (elementOf p'.element.2).1 = (elementOf p.element.2).1 := by
  cases h with
  | root standing selfClosing content content' hdirect helement =>
    dsimp only
    rw [helement]
  | component level standing selfClosing content content' hne hscoped hname hlists => exact hname
  | same => rfl

variable (hstates : ∀ s ∈ allStates, isStateName s = true) (hstate : isStateName state = true)
  (hnot : state ∉ allStates)

include hstates hstate hnot

/-- The other states show what they showed. -/
theorem membership_visibleIn_eq {other : Text} (hmem : other ∈ allStates) :
    (Membership.ofElement (elementOf p'.element.2)).visibleIn d other =
      (Membership.ofElement (elementOf p.element.2)).visibleIn d other := by
  cases h with
  | root standing selfClosing content content' hdirect helement =>
    have hsame : ∀ {word : Text}, word ≠ Word.states →
        valueIn? word (elementOf content').2 = valueIn? word (elementOf content).2 := by
      intro word hword
      rw [helement]
      exact valueIn?_declaredEntries hword
    rw [Membership.ofElement, Membership.ofElement, hsame (by decide), hsame (by decide), helement]
  | component level standing selfClosing content content' hne hscoped hname hlists =>
    exact hlists.visibleIn_eq (congrArg localOf hname) hstates hstate hmem
      fun heq => hnot (heq ▸ hmem)
  | same => rfl

/-- The new state shows no component directly below the root. -/
theorem membership_visibleIn_eq_false
    (hscoped : d.isScoped p.standing (elementOf p.element.2).1 = true)
    (hskin : localOf (elementOf p.element.2).1 ≠ d.skin)
    (hfresh : ¬ state <:+: (elementOf p.element.2).1)
    (hlists : ∀ e ∈ (elementOf p.element.2).2, Word.isStateList e.1 = true →
      state ∉ StateList.entries e.2) :
    (Membership.ofElement (elementOf p'.element.2)).visibleIn d state = false := by
  cases h with
  | root standing selfClosing content content' hdirect helement =>
    rw [Dialect.isScoped_of_ne hdirect] at hscoped
    cases hscoped
  | component level standing selfClosing content content' hne _ hname hscope =>
    have hpart : localOf (elementOf content).1 <:+: (elementOf content).1 := by
      conv => rhs; rw [← qualifier_append (elementOf content).1]
      exact (List.suffix_append _ _).isInfix
    refine ScopedOut.visibleIn_eq_false (m := .ofElement (elementOf content)) hscope
      (congrArg localOf hname) hstates hstate hskin (fun hin => hfresh (hin.trans hpart)) hnot
      fun value hvalue => ?_
    exact hlists _ (mem_of_valueIn? hvalue) rfl
  | same level standing selfClosing content hne hunscoped =>
    rw [hunscoped] at hscoped
    cases hscoped

end BlankElement

/-- What markup says about a site says it about the tree. -/
theorem blankSite_of_element (hstates : ∀ s ∈ allStates, isStateName s = true)
    (hstate : isStateName state = true) (hnot : state ∉ allStates)
    (h : BlankElement d allStates state p p') (hx : Site.shown x = p.read)
    (hx' : Site.shown x' = p'.read)
    (hfresh : ¬ state <:+: (elementOf p.element.2).1)
    (hlists : ∀ e ∈ (elementOf p.element.2).2, Word.isStateList e.1 = true →
      state ∉ StateList.entries e.2) : BlankSite d allStates state x x' := by
  obtain ⟨hlevel, hstanding, helement, htext⟩ := Site.shown_eq_read_iff.mp hx
  obtain ⟨hlevel', hstanding', helement', htext'⟩ := Site.shown_eq_read_iff.mp hx'
  have hname : x.1.element.name = (elementOf p.element.2).1 := congrArg Prod.fst helement
  have hname' : x'.1.element.name = (elementOf p'.element.2).1 := congrArg Prod.fst helement'
  have hentries : x.1.element.entries = (elementOf p.element.2).2 := congrArg Prod.snd helement
  have hentries' : x'.1.element.entries = (elementOf p'.element.2).2 := congrArg Prod.snd helement'
  refine
    { level := by rw [hlevel, hlevel', h.level_eq]
      standing := by rw [hstanding, hstanding', h.standing_eq]
      name := by rw [hname, hname', h.name_eq]
      hidden := fun hscoped hskin => ?_
      keeps := fun other hmem => ?_
      declares := fun hzero => ?_
      same := fun hne hunscoped => ?_ }
  · rw [hstanding, hname] at hscoped
    change localOf x.1.element.name ≠ d.skin at hskin
    rw [hname] at hskin
    rw [Site.isVisible_of_shown hx' hstate]
    exact h.membership_visibleIn_eq_false hstates hstate hnot hscoped hskin hfresh hlists
  · rw [Site.isVisible_of_shown hx' (hstates other hmem),
      Site.isVisible_of_shown hx (hstates other hmem)]
    exact h.membership_visibleIn_eq hstates hstate hnot hmem
  · rw [hlevel] at hzero
    rw [hentries, hentries']
    cases h with
    | root standing selfClosing content content' hdirect hroot =>
      dsimp only
      rw [hroot]
    | component level standing selfClosing content content' hne => exact absurd hzero hne
    | same level standing selfClosing content hne => exact absurd hzero hne
  · rw [hlevel] at hne
    rw [hstanding, hname] at hunscoped
    rw [htext, htext']
    cases h with
    | root => exact absurd rfl hne
    | component level standing selfClosing content content' _ hscoped =>
      cases hscoped.symm.trans hunscoped
    | same => rfl

end

/-- Lists are compared by what they have in common with related lists. -/
theorem forall₂_of_map_eq {α β γ : Type} {R : β → β → Prop} {f : α → γ} {g : β → γ}
    {as as' : List α} {bs bs' : List β} (h : as.map f = bs.map g) (h' : as'.map f = bs'.map g)
    (hbs : List.Forall₂ R bs bs') :
    List.Forall₂ (fun a a' => ∃ b b', f a = g b ∧ f a' = g b' ∧ R b b') as as' := by
  have hmap : List.Forall₂ (fun c c' => ∃ b b', c = g b ∧ c' = g b' ∧ R b b') (bs.map g)
      (bs'.map g) := by
    rw [List.forall₂_map_left_iff, List.forall₂_map_right_iff]
    exact hbs.imp fun b b' hb => ⟨b, b', rfl, rfl, hb⟩
  rw [← h, ← h', List.forall₂_map_left_iff, List.forall₂_map_right_iff] at hmap
  exact hmap

/-! ## A document -/

namespace Markup

variable {w : Markup} {d : Dialect} {allStates : List Text} {state : Text} {selfClosing : Bool}
  {st : StartTag}

/-- **What becomes of the start tags of a document with a blank state.** -/
theorem Document.forall₂_blanked (h : w.Document)
    (hsites : AllHideable d state (w.sites d .root 0))
    (hstates : ∀ s ∈ allStates, isStateName s = true) (hstate : isStateName state = true)
    (hfirst : w.first? = some (selfClosing, st.content)) (hroot : st.Root state) :
    List.Forall₂ (BlankElement d allStates state) (w.sites d .root 0)
      (((w.blanked d allStates state .root).declared state).sites d .root 0) := by
  have hfirst' := first?_blanked hfirst d allStates state
  have hsingle : (w.blanked d allStates state .root).Single :=
    (h.blanked hstates hstate hsites).single
  obtain ⟨below, hbelow, hspots⟩ := h.single.exists_sites hfirst d
  obtain ⟨below', -, hspots'⟩ := hsingle.exists_sites hfirst' d
  have hold := hspots st.content rfl
  have hnew := hspots' st.content rfl
  rw [setFirst_eq_self hfirst] at hold
  rw [setFirst_eq_self hfirst', sites_blanked hstates hstate hsites, hold, List.map_cons] at hnew
  have hbelow' := (List.cons.inj hnew).2
  have hreplaces : Replaces selfClosing st.content (st.declared state).content :=
    hroot.replaces_declared hstate
  rw [declared_of_first hroot.tidy hfirst', hspots' _ hreplaces.name, hold, ← hbelow']
  refine .cons (.root _ _ _ _ (by decide) (elementOf_declared hroot hstate)) ?_
  rw [List.forall₂_map_right_iff, List.forall₂_same]
  intro p hp
  obtain ⟨st', hst'⟩ := hsites p (hold ▸ List.mem_cons_of_mem _ hp)
  have hcontent := hst'.blankContent_eq allStates
  have hlevel := hbelow p hp
  obtain ⟨level, standing, selfClosing', content⟩ := p
  obtain rfl : st'.content = content := hst'.content
  dsimp only at hcontent hlevel ⊢
  have hname : (elementOf st'.content).1 = st'.name := hst'.ready.elementOf_fst
  cases hscoped : d.isScoped standing st'.name with
  | true =>
    have hsuccessor := hst'.ready.successor_scopedOut hstates hstate
    rw [hcontent, hscoped, if_pos rfl]
    refine .component level standing selfClosing' _ _ hlevel (by rw [hname, hscoped]) ?_ ?_
    · rw [hname, hsuccessor.ready.elementOf_fst, hsuccessor.name]
    · rw [hst'.ready.valueIn?_eq rfl, hst'.ready.valueIn?_eq rfl, hsuccessor.ready.valueIn?_eq rfl,
        hsuccessor.ready.valueIn?_eq rfl]
      exact st'.scopedOut_lists allStates state
  | false =>
    rw [hcontent, hscoped, if_neg (by decide)]
    exact .same level standing selfClosing' _ hlevel (by rw [hname, hscoped])

/-- What stands at the sites of a document, as it is read and as it is written. -/
theorem Document.map_shown {root : Tag} (h : w.Document) (htags : w.tags [] = [root.bare])
    (d : Dialect) :
    ((root.sites d .root 0).zip (startTokens w.source)).map Site.shown =
      (w.sites d .root 0).map Site.read := by
  have hzip : ((root.sites d .root 0).zip (startTokens w.source)).map Site.shown =
      ((root.sites d .root 0).map (Site.map Tag.element)).zip
        ((startTokens w.source).map (·.text)) := by
    rw [List.zip_map]
    rfl
  rw [hzip, element_sites_of_tags htags, h.texts_startTokens d, List.zip_map']
  rfl

theorem Document.length_startTokens {root : Tag} (h : w.Document) (htags : w.tags [] = [root.bare])
    (d : Dialect) : (startTokens w.source).length = (root.sites d .root 0).length := by
  have htexts := congrArg List.length (h.texts_startTokens d)
  have helements := congrArg List.length (element_sites_of_tags (d := d) htags)
  simp only [List.length_map] at htexts helements
  rw [htexts, helements]

end Markup

/-- **A blank state can be created in an editable document,** if no component
directly below the root has a name that ends in a blank and no attributes. -/
theorem Editable.allHideable {t state : Text} {root : Tag} {w : Markup} {d : Dialect}
    (h : Editable t root) (hw : w.Document) (hsource : w.source = t)
    (htags : w.tags [] = [root.bare]) (hfresh : ¬ state <:+: t)
    (hsolid : ∀ p ∈ root.sites d .root 0, d.isScoped p.standing p.element.name = true →
      p.element.head.attributes = [] → p.element.name.getLast? ≠ some '\u1680') :
    Markup.AllHideable d state (w.sites d .root 0) := by
  intro p hp
  have hmem := Markup.mem_events_of_mem_sites hp
  obtain ⟨st, hcontent, hst⟩ := h.ready hw hsource htags _ _ hmem
  have hnew := Markup.fresh_of_mem_events (hsource ▸ hfresh) hmem
  refine ⟨st, hcontent, hst, hcontent ▸ hnew, fun hscoped hnil => ?_⟩
  -- The element of the tree at the same site.
  have hsite : p.map (fun e => elementOf e.2) ∈
      (root.sites d .root 0).map (Site.map Tag.element) := by
    rw [Markup.element_sites_of_tags htags]
    exact List.mem_map_of_mem hp
  obtain ⟨q, hq, heq⟩ := List.mem_map.mp hsite
  have hstanding : q.standing = p.standing := congrArg Site.standing heq
  have helement : q.element.element = elementOf st.content := by
    rw [hcontent]
    exact congrArg Site.element heq
  have hname : q.element.name = st.name := (congrArg Prod.fst helement).trans hst.elementOf_fst
  have hlast := hsolid q hq (by rw [hstanding, hname]; exact hscoped)
    (Tag.attributes_eq_nil hst helement hnil)
  rw [hname] at hlast
  exact hst.listed.tidy.solid hlast

/-- **A blank state is blank.** -/
theorem blank_of_createState {t state : Text} {root : Tag} {d : Dialect} {allStates : List Text}
    (h : Editable t root) (hdoctype : NoDoctype t) (hparse : parseStrict t = .ok root)
    (hstates : ∀ s ∈ allStates, isStateName s = true) (hne : allStates ≠ [])
    (hstate : isStateName state = true) (hfresh : ¬ state <:+: t) (hnot : state ∉ allStates)
    (hsolid : ∀ p ∈ root.sites d .root 0,
      p.level = 0 ∨ d.isScoped p.standing p.element.name = true →
      p.element.head.attributes = [] → p.element.name.getLast? ≠ some '\u1680') :
    let created := createState d allStates state none t
    created.complete = true ∧ ∃ root', parseStrict created.text = .ok root' ∧
      (startTokens t).length = (root.sites d .root 0).length ∧
      (startTokens created.text).length = (root'.sites d .root 0).length ∧
      List.Forall₂ (BlankSite d allStates state) ((root.sites d .root 0).zip (startTokens t))
        ((root'.sites d .root 0).zip (startTokens created.text)) := by
  obtain ⟨w, hsource, hw, htags⟩ := h.exists_markup hdoctype hparse
  have hready := h.ready hw hsource htags
  have hsites := h.allHideable hw hsource htags hfresh fun p hp hscoped =>
    hsolid p hp (Or.inr hscoped)
  have hrootSolid := hsolid ⟨0, .root, root⟩ (by rw [Tag.sites_eq]; exact List.mem_cons_self)
    (Or.inl rfl)
  obtain ⟨selfClosing, st, hfirst, hst, hroot⟩ := h.exists_root hw hsource htags hrootSolid hfresh
  subst hsource
  have hcreate := hw.createState_blank_source hsites hstates hne hstate hfirst hroot
  have hnew : ((w.blanked d allStates state .root).declared state).Document :=
    (hw.blanked hstates hstate hsites).declared
      (Markup.first?_blanked hfirst d allStates state) hroot hstate
  obtain ⟨root', hparse', htags'⟩ := hnew.exists_parseStrict
  intro created
  have hcreated : created = ⟨((w.blanked d allStates state .root).declared state).source, true⟩ :=
    hcreate
  rw [hcreated]
  refine ⟨rfl, root', hparse', hw.length_startTokens htags d, hnew.length_startTokens htags' d, ?_⟩
  have hfreshSites : ∀ p ∈ w.sites d .root 0, ¬ state <:+: (elementOf p.element.2).1 ∧
      ∀ e ∈ (elementOf p.element.2).2, Word.isStateList e.1 = true →
        state ∉ StateList.entries e.2 := by
    intro p hp
    have hmem := Markup.mem_events_of_mem_sites hp
    exact ⟨fun hpart => Markup.fresh_of_mem_events hfresh hmem
      (hpart.trans (List.takeWhile_prefix _).isInfix), hready.not_mem_entries hfresh hmem⟩
  have helements := (List.forall₂_and_left _ _).mpr
    ⟨hfreshSites, hw.forall₂_blanked hsites hstates hstate hfirst hroot⟩
  refine (forall₂_of_map_eq (hw.map_shown htags d) (hnew.map_shown htags' d) helements).imp ?_
  rintro x x' ⟨p, p', hx, hx', ⟨hname, hlists⟩, helement⟩
  exact blankSite_of_element hstates hstate hnot helement hx hx' hname hlists

/-- A component, a container with a component that is missing from a state, one
that lists its states, a block of declarations, and components that stand deeper or
that only an editor uses. -/
theorem blank_of_createState_held :
    let t := "<e:Skin states=\"up\"><Rect/><Array><Rect excludeFrom = 'up'/></Array>
      <Label includeIn='up'><Rect/></Label><Declarations><Rect/></Declarations><w:Config/>
      </e:Skin>".toList
    let up := ['u', 'p']
    let held := ['h', 'e', 'l', 'd']
    let created := createState Dialect.standard [up] held none t
    ∃ root, (Editable t root ∧ NoDoctype t ∧ parseStrict t = .ok root ∧
        (∀ s ∈ [up], isStateName s = true) ∧ isStateName held = true ∧ ¬ held <:+: t ∧
        held ∉ [up]) ∧
      created.complete = true ∧ ∃ root', parseStrict created.text = .ok root' ∧
        (startTokens t).length = (root.sites Dialect.standard .root 0).length ∧
        (startTokens created.text).length = (root'.sites Dialect.standard .root 0).length ∧
        List.Forall₂ (BlankSite Dialect.standard [up] held)
          ((root.sites Dialect.standard .root 0).zip (startTokens t))
          ((root'.sites Dialect.standard .root 0).zip (startTokens created.text)) := by
  intro t up held created
  have hstates : ∀ s ∈ [up], isStateName s = true := by
    intro s hs
    rw [List.mem_singleton.mp hs]
    decide
  have hheld : isStateName held = true := by decide
  have hnot : held ∉ [up] := by decide
  have hany : ((parseStrict t).toOption.any fun root => decide (Editable t root) &&
      decide (NoDoctype t) && decide (¬ held <:+: t) &&
      (root.sites Dialect.standard .root 0).all fun p =>
        decide (p.element.name.getLast? ≠ some '\u1680')) = true := by
    decide +kernel
  obtain ⟨root, hparse, hproperties⟩ := exists_of_any_toOption hany
  simp only [Bool.and_eq_true, decide_eq_true_eq, List.all_eq_true] at hproperties
  obtain ⟨⟨⟨heditable, hdoctype⟩, hfresh⟩, hsolid⟩ := hproperties
  exact ⟨root, ⟨heditable, hdoctype, hparse, hstates, hheld, hfresh, hnot⟩,
    blank_of_createState heditable hdoctype hparse hstates (List.cons_ne_nil _ _) hheld hfresh hnot
      fun p hp _ _ => hsolid p hp⟩

/-- A document type declaration in lower case can hide the root from the scan, and
a new list does not go behind a name that ends in a blank. -/
theorem not_blank_of_createState :
    let hidden := "<!doctype x <<a></b>>><r/>".toList
    let blank := "<Skin><R\u1680/></Skin>".toList
    (∃ root, Editable hidden root ∧ containsWord "<!DOCTYPE".toList hidden = false ∧
        parseStrict hidden = .ok root ∧ isStateName ['a'] = true ∧ isStateName ['q'] = true ∧
        ¬ ['q'] <:+: hidden ∧
        (createState Dialect.standard [['a']] ['q'] none hidden).complete = false) ∧
      ∃ root, Editable blank root ∧ containsWord "<!DOCTYPE".toList blank = false ∧
        parseStrict blank = .ok root ∧ isStateName ['a'] = true ∧ isStateName ['q'] = true ∧
        ¬ ['q'] <:+: blank ∧
        ∀ root', parseStrict (createState Dialect.standard [['a']] ['q'] none blank).text ≠
          .ok root' := by
  intro hidden blank
  have hhidden : ((parseStrict hidden).toOption.any fun root => decide (Editable hidden root)) =
      true := by
    decide +kernel
  have hblank : ((parseStrict blank).toOption.any fun root => decide (Editable blank root)) =
      true := by
    decide +kernel
  have hnone : (parseStrict
      (createState Dialect.standard [['a']] ['q'] none blank).text).toOption.isNone = true := by
    decide +kernel
  obtain ⟨root₁, hparse₁, heditable₁⟩ := exists_of_any_toOption hhidden
  obtain ⟨root₂, hparse₂, heditable₂⟩ := exists_of_any_toOption hblank
  refine ⟨⟨root₁, of_decide_eq_true heditable₁, by decide +kernel, hparse₁, by decide, by decide,
    by decide +kernel, by decide +kernel⟩, ⟨root₂, of_decide_eq_true heditable₂, by decide +kernel,
    hparse₂, by decide, by decide, by decide +kernel, fun root' hparse' => ?_⟩⟩
  rw [hparse'] at hnone
  cases hnone

end SkinMarkup
