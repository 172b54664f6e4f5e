import SkinMarkup.Proofs.State.StartedTag
import SkinMarkup.Tag.Query

/-!
# The last state to start in wins

Setting the state to start in changes the start tag of the root and nothing else. The
document has that state afterwards and is the same otherwise; a second state replaces the
first one without a trace, and without a state the document is what it was without one
(`started_of_parseStrict`).

The root has to be found by a scan, so there is no document type declaration in any letter
case (`not_started_of_setStartState`), and its name must not be cut: a name can end in
one blank, which is trimmed off where the attribute goes next to it.
-/

namespace SkinMarkup

/-- A document whose root can name the state to start in: the attribute is found where it
is, and the name of the root ends in the one blank that names can have only if an attribute
stands between the name and the place of the state. -/
structure Startable (t : Text) (root : Tag) : Prop extends TidyText t root where
  /-- The first start tag is that of the root. -/
  silent : ∀ token ∈ (startTokens t).head?, ∀ p ∈ token.pieces,
    containsWord Word.currentState p.value = false
  value : ∀ token ∈ (startTokens t).head?, ∀ p ∈ token.pieces,
    p.name = Word.currentState → ListValue p.value
  apart : root.name.getLast? = some '\u1680' → ∃ a ∈ root.head.attributes.head?,
    a.name ≠ Word.currentState ∧
      (root.head.value? Word.currentState = none → startsWith Namespace.marker a.name = false)

instance (t : Text) (root : Tag) : Decidable (Startable t root) :=
  decidable_of_iff
    (TidyText t root ∧
      (∀ token ∈ (startTokens t).head?, ∀ p ∈ token.pieces,
        containsWord Word.currentState p.value = false) ∧
      (∀ token ∈ (startTokens t).head?, ∀ p ∈ token.pieces,
        p.name = Word.currentState → ListValue p.value) ∧
      (root.name.getLast? = some '\u1680' → ∃ a ∈ root.head.attributes.head?,
        a.name ≠ Word.currentState ∧
          (root.head.value? Word.currentState = none → startsWith Namespace.marker a.name = false)))
    ⟨fun ⟨h₁, h₂, h₃, h₄⟩ => ⟨h₁, h₂, h₃, h₄⟩, fun ⟨h₁, h₂, h₃, h₄⟩ => ⟨h₁, h₂, h₃, h₄⟩⟩

/-- Texts that differ at most in the start tag of `root`, which is the root of the first
one. -/
def Tag.Confines (root : Tag) (t t' : Text) : Prop :=
  ∃ before tag tag' after, t = before ++ tag ++ after ∧ t' = before ++ tag' ++ after ∧
    width before = root.head.start ∧ width before + width tag = root.head.startTagEnd

variable {t : Text} {root : Tag} {w : Markup} {selfClosing : Bool}

/-! ## The root of a startable document -/

/-- What the tree says about the name of the root holds of its start tag. -/
theorem StartTag.Sound.apart {st : StartTag} (h : st.Sound) (hname : root.name = st.name)
    (hentries : root.entries = st.pieces.map WrittenPiece.read)
    (hroot : root.name.getLast? = some '\u1680' → ∃ a ∈ root.head.attributes.head?,
      a.name ≠ Word.currentState ∧
        (root.head.value? Word.currentState = none → startsWith Namespace.marker a.name = false)) :
    st.Apart := by
  by_cases hlast : st.name.getLast? = some '\u1680'
  · obtain ⟨a, ha, hother, hmarked⟩ := hroot (hname ▸ hlast)
    obtain ⟨p, hp, hsame⟩ : ∃ p ∈ st.pieces.head?, p.read = a.entry := by
      have hhead := congrArg List.head? hentries
      rw [Tag.entries, List.head?_map, List.head?_map, Option.mem_def.mp ha] at hhead
      obtain ⟨p, hp, hsame⟩ := Option.map_eq_some_iff.mp hhead.symm
      exact ⟨p, hp, hsame⟩
    have hnames : p.name = a.name := congrArg Prod.fst hsame
    refine Or.inr ⟨p, hp, hnames ▸ hother, fun hnone => hnames ▸ hmarked ?_⟩
    rw [Tag.value?_eq, hentries, valueIn?, Option.map_eq_none_iff, List.find?_eq_none]
    intro e he heq
    obtain ⟨q, hq, rfl⟩ := List.mem_map.mp he
    exact not_mem_of_value? hnone (List.mem_map.mpr ⟨q, hq, of_decide_eq_true heq⟩)
  · exact Or.inl (h.tidy.solid hlast)

/-- **In a startable document the state to start in has its place.** -/
theorem Startable.exists_root (h : Startable t root) (hw : w.Document) (hsource : w.source = t)
    (htags : w.tags [] = [root.bare]) :
    ∃ (selfClosing : Bool) (st : StartTag), w.first? = some (selfClosing, st.content) ∧ st.Sound ∧
      st.Clear Word.currentState ∧ st.Apart := by
  obtain ⟨selfClosing, content, hfirst⟩ := hw.single.exists_first
  obtain ⟨st, rfl, hsound, -⟩ := h.exists_sound hw hsource htags (Markup.mem_events_of_first hfirst)
  obtain ⟨token, htokenMem, htoken⟩ := hw.exists_head hfirst
  have hpieces := hsound.tidy.regular.pieces_of_isToken hsound.tidy.name hsound.tidy.names htoken
  rw [hsource] at htokenMem
  have hsilent := h.silent token htokenMem
  have hvalue := h.value token htokenMem
  rw [hpieces] at hsilent hvalue
  obtain ⟨hname, hentries⟩ := Markup.entries_of_first hfirst htags hsound
  refine ⟨selfClosing, st, hfirst, hsound,
    ⟨fun p hp => avoids_of_containsWord isWord_currentState.chars (hsilent p hp), hvalue⟩,
    hsound.apart hname hentries h.apart⟩

namespace Markup

/-- Setting the state to start in writes another start tag for the root. -/
theorem Document.setStartState_source (hw : w.Document) {st u : StartTag}
    (hfirst : w.first? = some (selfClosing, st.content)) {state : Option Text}
    (htext : startStateTag (.ofStart selfClosing) (activeState state) (st.text selfClosing) =
      u.text selfClosing) :
    setStartState state w.source = ⟨(w.setFirst u.content).source, true⟩ := by
  rw [setStartState, editRoot_source hw.lexed hw.scannable.opens hfirst (some u.content)
    fun token htoken => ?_]
  · rfl
  · rw [htoken.text, htoken.kind, StartTag.source_start, htext, Option.map_some,
      StartTag.source_start]

end Markup

/-- A tag without an attribute is the tag without it. -/
theorem Tag.mapAttributes_remove_eq_self {name : Text} {x : Tag}
    (h : ∀ e ∈ x.entries, e.1 ≠ name) : x.mapAttributes (Attribute.remove name) = x := by
  have hsame : Attribute.remove name x.head.attributes = x.head.attributes := by
    rw [Attribute.remove, List.filter_eq_self]
    intro a ha
    exact decide_eq_true (h a.entry (List.mem_map_of_mem ha))
  cases x
  rw [Tag.mapAttributes, hsame]

/-- **The last state to start in wins,** and setting it changes nothing else. -/
theorem started_of_parseStrict {a : Text} (h : Startable t root) (hdoctype : NoDoctype t)
    (hparse : parseStrict t = .ok root) (ha : isStateName a = true) :
    ∃ s : Text, setStartState (some a) t = ⟨s, true⟩ ∧ root.Confines t s ∧
      (∃ root', parseStrict s = .ok root' ∧ root'.startState? = some a ∧
        (root'.mapAttributes (Attribute.remove Word.currentState)).bare =
          (root.mapAttributes (Attribute.remove Word.currentState)).bare) ∧
      (∀ b, isStateName b = true → setStartState (some b) s = setStartState (some b) t) ∧
      ∃ r : Text, setStartState none s = ⟨r, true⟩ ∧ root.Confines t r ∧
        ∃ root', parseStrict r = .ok root' ∧
          root'.bare = (root.mapAttributes (Attribute.remove Word.currentState)).bare := by
  have hplain : Plain t := ⟨h.unmarked, hdoctype, noEscapedQuote_of_not_mem h.backslash⟩
  obtain ⟨split, hsplit, htext, hstart, hstop⟩ := exists_rootSplit hplain hparse
  obtain ⟨w, rfl, hw, htags⟩ := h.exists_markup hdoctype hparse
  obtain ⟨selfClosing, st, hfirst, hst, hclear, hapart⟩ := h.exists_root hw rfl htags
  obtain ⟨u, hseat, hset⟩ := hst.exists_seat hclear hapart selfClosing
  have hactive : ∀ b, isStateName b = true → activeState (some b) = some b := fun b hb => by
    simp [activeState, ne_nil_of_isStateName hb]
  have hconfines : ∀ content, root.Confines w.source (w.setFirst content).source := by
    obtain ⟨split', hsplit', -, hsource⟩ := Markup.splitAtRoot_source hw.lexed hw.scannable.opens hfirst
    cases hsplit.symm.trans hsplit'
    exact fun content => ⟨split.before, split.root.text, _, split.after, htext, hsource content,
      hstart, hstop⟩
  have hfirstSet : ∀ b, isStateName b = true → setStartState (some b) w.source =
      ⟨(w.setFirst (u.rewrite (.set Word.currentState b)).content).source, true⟩ := fun b hb =>
    hw.setStartState_source hfirst (by rw [hactive b hb]; exact hset b)
  -- The document with the first state.
  have hsound := hseat.sound_set ha
  have hreplaces := hsound.replaces hst.tidy.regular hseat.name selfClosing
  have hw' := hw.setFirst hfirst hreplaces
  have hfirst' := Markup.first?_setFirst hfirst (u.rewrite (.set Word.currentState a)).content
  refine ⟨_, hfirstSet a ha, hconfines _, ?_, fun b hb => ?_, _, hw'.setStartState_source hfirst'
    (hseat.startStateTag_none ha selfClosing), ?_, ?_⟩
  · obtain ⟨root', hparse', hentries, hsame⟩ :=
      hw.exists_sameBut htags hfirst hreplaces (hseat.sameBut_set hst ha) rfl
    refine ⟨root', hparse', ?_, hsame⟩
    rw [Tag.startState?, Tag.value?_eq, hentries, hseat.valueIn?_set ha, Option.map_some,
      trim_of_trimmed (isEntry_of_isStateName ha).trimmed]
    exact hactive a ha
  · rw [hfirstSet b hb, hw'.setStartState_source hfirst'
      (by rw [hactive b hb]; exact hseat.startStateTag_some ha b selfClosing),
      Markup.setFirst_setFirst]
  · rw [Markup.setFirst_setFirst]
    exact hconfines _
  · have hdropped := hseat.sound.drop (· = Word.currentState)
    obtain ⟨root', hparse', hentries, hsame⟩ := hw.exists_sameBut htags hfirst
      (hdropped.replaces hst.tidy.regular hseat.name selfClosing) (hseat.sameBut_drop hst) rfl
    rw [Markup.setFirst_setFirst]
    refine ⟨root', hparse', ?_⟩
    rw [← hsame, Tag.mapAttributes_remove_eq_self]
    intro e he
    rw [hentries, hdropped.entriesOf_content, StartTag.pieces_rewrite_drop] at he
    obtain ⟨p, hp, rfl⟩ := List.mem_map.mp he
    have hkept : p.name ≠ Word.currentState := by simpa using (List.mem_filter.mp hp).2
    exact hkept

/-- A root with a declared prefix, whose name ends in the blank that names can have: the
state goes in front of the prefix, the next one takes its place, and without a state the
blanks that were in front of it are gone too. -/
theorem started_of_declaredPrefix :
    let t := "<?go?><r\u1680 x='1'\n\txmlns:e = \"u\"><e:a/></r\u1680>".toList
    let s := "<?go?><r\u1680 x='1'\n\tcurrentState=\"up\" xmlns:e = \"u\"><e:a/></r\u1680>".toList
    let r := "<?go?><r\u1680 x='1' xmlns:e = \"u\"><e:a/></r\u1680>".toList
    ∃ root, (Startable t root ∧ NoDoctype t ∧ parseStrict t = .ok root ∧
        isStateName ['u', 'p'] = true ∧ isStateName ['d'] = true) ∧
      setStartState (some ['u', 'p']) t = ⟨s, true⟩ ∧ root.Confines t s ∧
      (∃ root', parseStrict s = .ok root' ∧ root'.startState? = some ['u', 'p'] ∧
        (root'.mapAttributes (Attribute.remove Word.currentState)).bare =
          (root.mapAttributes (Attribute.remove Word.currentState)).bare) ∧
      setStartState (some ['d']) s = setStartState (some ['d']) t ∧
      setStartState none s = ⟨r, true⟩ ∧ root.Confines t r ∧
      ∃ root', parseStrict r = .ok root' ∧
        root'.bare = (root.mapAttributes (Attribute.remove Word.currentState)).bare := by
  intro t s r
  have hany : ((parseStrict t).toOption.any fun root => decide (Startable t root) &&
      decide (NoDoctype t)) = true := by
    decide +kernel
  obtain ⟨root, hparse, hproperties⟩ := exists_of_any_toOption hany
  simp only [Bool.and_eq_true, decide_eq_true_eq] at hproperties
  obtain ⟨hstartable, hdoctype⟩ := hproperties
  obtain ⟨s', hset, hconfines, htree, hlast, r', hnone, hconfines', htree'⟩ :=
    started_of_parseStrict hstartable hdoctype hparse (a := ['u', 'p']) (by decide)
  have hs : setStartState (some ['u', 'p']) t = ⟨s, true⟩ := by decide +kernel
  obtain rfl : s' = s := congrArg Outcome.text (hset.symm.trans hs)
  have hr : setStartState none s = ⟨r, true⟩ := by decide +kernel
  obtain rfl : r' = r := congrArg Outcome.text (hnone.symm.trans hr)
  exact ⟨root, ⟨hstartable, hdoctype, hparse, by decide, by decide⟩, hset, hconfines, htree,
    hlast ['d'] (by decide), hnone, hconfines', htree'⟩

/-- A document type declaration in lower case hides the root from the scan, and a name that
ends in a blank is cut where the state is written next to it. -/
theorem not_started_of_setStartState :
    let t := "<!doctype x <<a></b>>><r/>".toList
    let blank := "<r\u1680/>".toList
    (containsWord "<!DOCTYPE".toList t = false ∧
      (∃ root, parseStrict t = .ok root ∧ Startable t root) ∧
      (setStartState (some ['a']) t).complete = false) ∧
    (NoDoctype blank ∧
      (∃ root, parseStrict blank = .ok root ∧ TidyText blank root) ∧
      (parseStrict (setStartState (some ['a']) blank).text).toOption = none) := by
  intro t blank
  have hany : ((parseStrict t).toOption.any fun root => decide (Startable t root)) = true := by
    decide +kernel
  obtain ⟨root, hparse, hstartable⟩ := exists_of_any_toOption hany
  have hanyBlank : ((parseStrict blank).toOption.any fun root =>
      decide (TidyText blank root)) = true := by
    decide +kernel
  obtain ⟨root', hparse', htidy⟩ := exists_of_any_toOption hanyBlank
  exact ⟨⟨by decide +kernel, ⟨root, hparse, of_decide_eq_true hstartable⟩, by decide +kernel⟩,
    by decide +kernel, ⟨root', hparse', of_decide_eq_true htidy⟩, by decide +kernel⟩

end SkinMarkup
