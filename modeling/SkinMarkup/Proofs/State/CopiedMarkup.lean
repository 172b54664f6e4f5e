import SkinMarkup.Proofs.State.Actions
import SkinMarkup.Proofs.State.Revisions

/-!
# Documents with a copied state

Copying a state in an editable document gives each start tag outside the blocks
of declarations its copy, and the list on the root gets the new state:
`createState_source`. The outcome is a document again.
-/

namespace SkinMarkup

/-! ## Tokens of start tags -/

namespace StartTag

variable {t : StartTag} {token : Token} {selfClosing : Bool} {model state : Text}

theorem Tidy.name_of_isToken (h : t.Tidy)
    (htoken : Markup.IsToken token (.ofStart selfClosing) (.start selfClosing t.content)) :
    token.name = t.name :=
  name_of_text h.name (fun c hc => isSpace_of_isMarkupSpace (h.regular.head?_after_name c hc))
    htoken.kind (htoken.text.trans (source_start selfClosing t))

/-- A token starts a block of declarations if the start tag does. -/
theorem Tidy.localName_of_isToken (h : t.Tidy)
    (htoken : Markup.IsToken token (.ofStart selfClosing) (.start selfClosing t.content)) :
    token.localName = localOf (WrittenAttribute.elementName t.content) := by
  rw [Token.localName, h.name_of_isToken htoken, h.regular.elementName_content]

theorem Regular.isBlock_content (d : Dialect) (h : t.Regular) :
    d.isBlock t.content = (localOf t.name == d.declarations) := by
  rw [Dialect.isBlock, h.elementName_content]

/-! ## Start tags that take the place of others -/

theorem Ready.replaces_copied (h : t.Ready) (hstate : isStateName state = true)
    (hfresh : ¬ state <:+: t.content) :
    Markup.Replaces selfClosing t.content (t.copied model state).content := by
  have htidy : (t.copied model state).Tidy := h.listed.tidy_copied hstate hfresh
  obtain ⟨entries, hentries⟩ := Option.isSome_iff_exists.mp h.readable
  have hback : '\\' ∉ state := not_mem_of_isStateName hstate rfl
  have hpart : ∀ p ∈ t.pieces, '\\' ∉ p.source := fun p hp hmem =>
    h.backslash (mem_content_of_mem_source hp hmem)
  refine ⟨⟨htidy.regular.whole_start h.starts selfClosing, ?_, ?_⟩, ?_⟩
  · rw [h.listed.entriesOf?_copied hstate hfresh hentries h.plain]
    rfl
  · rw [htidy.regular.elementName_content, h.listed.tidy.regular.elementName_content]
    rfl
  · refine not_mem_content_append (not_mem_content_rewrite h.backslash ?_) fun q hq => ?_
    · intro p hp value hvalue
      have hold : '\\' ∉ p.value := fun hmem => hpart p hp (by simp [mem_source, hmem])
      rw [ValueEdit.copy, Option.mem_some_iff] at hvalue
      subst hvalue
      split
      · exact not_mem_render (by decide) (forall_mem_concat (fun _ hsub hmem =>
          hold (hsub.subset hmem)) hback)
      · exact hold
    · obtain ⟨p, hp, stem, -, hname, rfl⟩ := mem_copies hq
      have hold := hpart p hp
      simp only [mem_source, hname, List.mem_append, List.mem_cons] at hold ⊢
      simp_all

/-- A start tag to which the list of a document's states can be added. -/
structure Root (state : Text) (t : StartTag) : Prop where
  tidy : t.Tidy
  clear : t.Clear Word.states
  plain : ∀ p ∈ t.pieces, p.name = Word.states → '&' ∉ p.value
  starts : Event.Starts t.name
  backslash : '\\' ∉ t.content
  readable : (entriesOf? t.content).isSome = true
  fresh : ∀ p ∈ t.pieces, p.name = Word.states → state ∉ StateList.entries p.value
  solid : t.pieces = [] → t.Solid

theorem name_declared (state : Text) (t : StartTag) : (t.declared state).name = t.name := by
  rw [StartTag.declared]
  split <;> rfl

theorem Root.replaces_declared (h : t.Root state) (hstate : isStateName state = true) :
    Markup.Replaces selfClosing t.content (t.declared state).content := by
  have htidy := h.tidy.declared h.clear hstate
  obtain ⟨entries, hentries⟩ := Option.isSome_iff_exists.mp h.readable
  have hback : '\\' ∉ state := not_mem_of_isStateName hstate rfl
  refine ⟨⟨htidy.regular.whole_start (name_declared state t ▸ h.starts) selfClosing, ?_, ?_⟩, ?_⟩
  · rw [h.tidy.entriesOf?_declared h.clear hstate hentries h.plain]
    rfl
  · rw [htidy.regular.elementName_content, h.tidy.regular.elementName_content, name_declared]
  · cases hvalue : t.value? Word.states with
    | some value =>
      rw [declared_of_some hvalue]
      refine not_mem_content_rewrite h.backslash fun p hp value hvalue => ?_
      have hold : '\\' ∉ p.value := fun hmem => h.backslash ((part_of_mem hp).2.subset hmem)
      rcases extend_eq_some hvalue with rfl | ⟨-, rfl⟩
      · exact hold
      · exact not_mem_render (by decide) (forall_mem_concat (fun _ hsub hmem =>
          hold (hsub.subset hmem)) hback)
    | none =>
      rw [declared_of_none hvalue]
      refine not_mem_content_append h.backslash fun p hp => ?_
      rw [List.mem_singleton.mp hp]
      simp [mem_source, WrittenPiece.usual, hback, Word.states]

/-- An attribute of a copy that is no list of an element's states was there
before, or it copies another one. -/
theorem mem_copied {q : WrittenPiece} (hq : q ∈ (t.copied model state).pieces)
    (hname : Word.isStateList q.name = false) :
    q ∈ t.pieces ∨ q ∈ t.copies model state := by
  rcases List.mem_append.mp hq with hq | hq
  · obtain ⟨p, hp, value, hvalue, rfl⟩ := mem_rewrite hq
    change Word.isStateList p.name = false at hname
    simp only [ValueEdit.copy, hname, Bool.false_and, Bool.false_eq_true, if_false,
      Option.some.injEq] at hvalue
    subst hvalue
    exact Or.inl hp
  · exact Or.inr hq

/-- A copy keeps the list of a document's states. -/
theorem mem_of_mem_copied {q : WrittenPiece} (hq : q ∈ (t.copied model state).pieces)
    (hname : q.name = Word.states) : q ∈ t.pieces := by
  refine (mem_copied hq (by rw [hname]; rfl)).resolve_right fun hcopy => ?_
  obtain ⟨p, -, stem, -, -, rfl⟩ := mem_copies hcopy
  exact absurd (by simp [← hname]) isWord_states.dot

theorem copied_eq_nil (h : (t.copied model state).pieces = []) : t.pieces = [] := by
  refine List.eq_nil_iff_forall_not_mem.mpr fun p hp => ?_
  have hmem : { p with value := if Word.isStateList p.name && (StateList.entries p.value).contains model
      then StateList.render (StateList.entries p.value ++ [state]) else p.value } ∈
      (t.copied model state).pieces :=
    List.mem_append_left _ (List.mem_filterMap.mpr ⟨p, hp, rfl⟩)
  rw [h] at hmem
  cases hmem

theorem Ready.root_copied (h : t.Ready) (hroot : t.Root state) (hstate : isStateName state = true)
    (hfresh : ¬ state <:+: t.content) : (t.copied model state).Root state := by
  have hreplaces : Markup.Replaces false t.content (t.copied model state).content :=
    h.replaces_copied hstate hfresh
  exact
    { tidy := h.listed.tidy_copied hstate hfresh
      clear := h.listed.clear_copied hstate isWord_states hroot.clear
      plain := fun p hp hname => hroot.plain p (mem_of_mem_copied hp hname) hname
      starts := h.starts
      backslash := hreplaces.backslash
      readable := hreplaces.readable
      fresh := fun p hp hname => hroot.fresh p (mem_of_mem_copied hp hname) hname
      solid := fun hnil => hroot.solid (copied_eq_nil hnil) }

end StartTag

/-! ## Copying a state in markup -/

namespace Markup

variable {w : Markup} {d : Dialect} {model state : Text}

/-- The content of a start tag outside the blocks of declarations in which a new
state copies another one. -/
def copyContent (model state content : Text) : Text :=
  ((StartTag.ofContent content).copied model state).content

theorem copyContent_content {st : StartTag} (h : st.Tidy) (model state : Text) :
    copyContent model state st.content = (st.copied model state).content := by
  rw [copyContent, h.ofContent_content]

/-- Decides about an element when a state is copied. -/
def copyJudge (d : Dialect) (model state : Text) (_ : Unit) (_ : Bool) (content : Text) :
    Unit × Verdict :=
  ((), if d.isBlock content then .pass else .write (copyContent model state content))

theorem copyJudge_ne_erase (d : Dialect) (model state : Text) (memory : Unit) (selfClosing : Bool)
    (content : Text) : (copyJudge d model state memory selfClosing content).2 ≠ .erase := by
  rw [copyJudge]
  dsimp only
  split <;> exact nofun

/-- Markup in which a new state copies another one. -/
def copied (d : Dialect) (model state : Text) (w : Markup) : Markup :=
  (w.revise (copyJudge d model state) () []).2

/-- Markup whose root has one more state. -/
def declared (state : Text) (w : Markup) : Markup :=
  match w.first? with
  | some (_, content) => w.setFirst ((StartTag.ofContent content).declared state).content
  | none => w

theorem declared_of_first {selfClosing : Bool} {st : StartTag} (h : st.Tidy)
    (hfirst : w.first? = some (selfClosing, st.content)) :
    w.declared state = w.setFirst (st.declared state).content := by
  rw [declared, hfirst]
  simp only [h.ofContent_content]

theorem part_of_mem_events {event : Event} (h : event ∈ w.events) : event.source <:+: w.source := by
  obtain ⟨l, r, hevents⟩ := List.append_of_mem h
  refine ⟨l.flatMap Event.source, r.flatMap Event.source, ?_⟩
  rw [source, hevents]
  simp

/-- What is nowhere in markup is not in its start tags. -/
theorem fresh_of_mem_events {selfClosing : Bool} {content : Text} (hfresh : ¬ state <:+: w.source)
    (h : Event.start selfClosing content ∈ w.events) : ¬ state <:+: content := by
  intro hpart
  refine hfresh ((hpart.trans ?_).trans (part_of_mem_events h))
  cases selfClosing with
  | true => exact ⟨['<'], ['/', '>'], by simp [Event.start, Event.source]⟩
  | false => exact ⟨['<'], ['>'], by simp [Event.start, Event.source]⟩

section

variable (hready : w.Ready) (hstate : isStateName state = true) (hfresh : ¬ state <:+: w.source)

include hready hstate hfresh

theorem Ready.follows_copy (d : Dialect) (hmodel : model ≠ []) :
    Follows (copyJudge d model state) (fun _ token => ((), copyAction d model state token)) w := by
  constructor
  · intro memory token hstart
    rw [copyAction_of_not_isStart hstart]
  · intro memory selfClosing content token hmem htoken
    obtain ⟨st, rfl, hst⟩ := hready selfClosing content hmem
    have htidy := hst.listed.tidy
    have hstart := isStart_of_isToken selfClosing htoken
    have hname := htidy.localName_of_isToken htoken
    have htext := hst.listed.copyTag_text hstate (fresh_of_mem_events hfresh hmem) hmodel selfClosing
    rw [copyJudge, Dialect.isBlock, ← hname]
    by_cases hblock : token.localName = d.declarations
    · rw [copyAction_of_declarations hstart hblock, if_pos (beq_iff_eq.mpr hblock)]
      rfl
    · rw [copyAction_of_isStart hstart hblock, if_neg (by simpa using hblock), htoken.kind,
        htoken.text, StartTag.source_start, htext, copyContent_content htidy, Verdict.action,
        StartTag.source_start]

theorem Ready.careful_copy (d : Dialect) (model : Text) : Careful (copyJudge d model state) w := by
  intro memory selfClosing content content' hmem hjudge
  obtain ⟨st, rfl, hst⟩ := hready selfClosing content hmem
  rw [copyJudge] at hjudge
  dsimp only at hjudge
  split at hjudge
  · cases hjudge
  · cases hjudge
    rw [copyContent_content hst.listed.tidy]
    exact hst.replaces_copied hstate (fresh_of_mem_events hfresh hmem)

theorem Document.copied (h : w.Document) : (w.copied d model state).Document :=
  h.revise (hready.careful_copy hstate hfresh d model) fun selfClosing content _ =>
    copyJudge_ne_erase d model state () selfClosing content

end

/-- The root of markup in which a state was copied. -/
theorem first?_copied {selfClosing : Bool} {content : Text}
    (hfirst : w.first? = some (selfClosing, content)) :
    (w.copied d model state).first? =
      some (selfClosing, if d.isBlock content then content else copyContent model state content) := by
  rw [copied, first?_revise (copyJudge d model state) () hfirst
    (copyJudge_ne_erase d model state () selfClosing content), copyJudge]
  cases d.isBlock content <;> rfl

/-! ## The list on the root -/

section

variable {selfClosing : Bool} {st : StartTag} (hfirst : w.first? = some (selfClosing, st.content))
  (hroot : st.Root state) (hstate : isStateName state = true)

include hfirst hroot

/-- **Declaring a state in a document declares it in the markup.** -/
theorem Document.declareState_source (h : w.Document) :
    declareState state w.source = ⟨(w.declared state).source, true⟩ := by
  have hdeclared : w.declared state = w.setFirst (st.declared state).content :=
    declared_of_first hroot.tidy hfirst
  rw [declareState, hdeclared, editRoot_source h.lexed h.scannable.opens hfirst
    (some (st.declared state).content) fun token htoken => ?_]
  · rfl
  · rw [htoken.text, htoken.kind, StartTag.source_start]
    rw [Option.map_some, StartTag.source_start]
    exact hroot.tidy.declare_text hroot.clear hroot.fresh hroot.solid selfClosing

include hstate

theorem Document.declared (h : w.Document) : (w.declared state).Document := by
  have hnew : Replaces selfClosing st.content (st.declared state).content :=
    hroot.replaces_declared hstate
  rw [declared_of_first hroot.tidy hfirst]
  exact h.setFirst hfirst hnew

end

/-! ## Creating a copy -/

section

variable {selfClosing : Bool} {st : StartTag} (h : w.Document) (hready : w.Ready)
  (hstate : isStateName state = true) (hfresh : ¬ state <:+: w.source)
  (hfirst : w.first? = some (selfClosing, st.content)) (hst : st.Ready) (hroot : st.Root state)

include h hready hstate hfresh hfirst hst hroot

omit h hready in
theorem exists_root_copied (d : Dialect) (model : Text) :
    ∃ st' : StartTag, (w.copied d model state).first? = some (selfClosing, st'.content) ∧
      st'.Root state ∧ st' = if d.isBlock st.content then st else st.copied model state := by
  refine ⟨_, ?_, ?_, rfl⟩
  · rw [first?_copied hfirst, copyContent_content hst.listed.tidy]
    split <;> rfl
  · split
    · exact hroot
    · exact hst.root_copied hroot hstate (fresh_of_mem_events hfresh (mem_events_of_first hfirst))

/-- **Creating a copy of a state copies it in the markup** and declares it. -/
theorem createState_source (hmodel : model ≠ []) (allStates : List Text) :
    createState d allStates state (some model) w.source =
      ⟨((w.copied d model state).declared state).source, true⟩ := by
  have hrevise := reviseText_source h.lexed h.scannable
    (hready.follows_copy hstate hfresh d hmodel) ()
  obtain ⟨st', hfirst', hroot', -⟩ :=
    exists_root_copied hstate hfresh hfirst hst hroot d model
  have hdeclare := (h.copied hready hstate hfresh).declareState_source hfirst' hroot'
  simp only [createState, hrevise, Outcome.andThen]
  rw [copied] at hdeclare
  rw [hdeclare]
  rfl

theorem document_copied (d : Dialect) (model : Text) :
    ((w.copied d model state).declared state).Document := by
  obtain ⟨st', hfirst', hroot', -⟩ :=
    exists_root_copied hstate hfresh hfirst hst hroot d model
  exact (h.copied hready hstate hfresh).declared hfirst' hroot' hstate

end

end Markup

/-- The root of an editable document can declare a new state, unless it has no
attributes and a name that ends in a blank. -/
theorem Editable.exists_root {t state : Text} {root : Tag} {w : Markup} (h : Editable t root)
    (hw : w.Document) (hsource : w.source = t) (htags : w.tags [] = [root.bare])
    (hsolid : root.head.attributes = [] → root.name.getLast? ≠ some '\u1680')
    (hfresh : ¬ state <:+: t) :
    ∃ (selfClosing : Bool) (st : StartTag),
      w.first? = some (selfClosing, st.content) ∧ st.Ready ∧ st.Root state := by
  obtain ⟨selfClosing, content, hfirst⟩ := hw.single.exists_first
  have hmem := Markup.mem_events_of_first hfirst
  obtain ⟨st, rfl, hst⟩ := h.ready hw hsource htags selfClosing content hmem
  obtain ⟨hclear, hplain⟩ := h.clear_states hw hsource hst hfirst
  have htidy := hst.listed.tidy
  have hnew := Markup.fresh_of_mem_events (hsource ▸ hfresh) hmem
  refine ⟨selfClosing, st, hfirst, hst, htidy, hclear, hplain, hst.starts, hst.backslash,
    hst.readable, fun p hp _ => StartTag.not_mem_entries_of_fresh hnew hp, fun hnil c hc => ?_⟩
  obtain ⟨entries, hentries⟩ := Option.isSome_iff_exists.mp hst.readable
  have helement := Markup.element_of_first hfirst htags
  rw [Tag.element, elementOf, entriesOf, hentries, htidy.regular.elementName_content] at helement
  obtain ⟨hname, hattributes⟩ := Prod.mk.inj helement
  have hnone : root.head.attributes = [] := by
    have hnames := htidy.regular.names_eq hentries
    rw [hnil, List.map_nil, List.map_eq_nil_iff] at hnames
    rw [Option.getD_some, hnames] at hattributes
    exact List.map_eq_nil_iff.mp hattributes
  cases hblank : isBlank c with
  | false => rfl
  | true =>
    have heq := eq_of_isBlank (htidy.name c (List.mem_of_getLast? hc)) hblank
    exact absurd (hname ▸ heq ▸ hc) (hsolid hnone)

end SkinMarkup
