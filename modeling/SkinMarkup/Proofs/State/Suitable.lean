import SkinMarkup.Proofs.State.Framed
import SkinMarkup.Proofs.State.Placed
import SkinMarkup.Proofs.State.Starting

/-!
# Edits that suit a document

An edit of states suits a document if it finds the attributes that it looks up in the tags
that it edits, does not erase the root, and gives no element two attributes of one name
(`StateEdit.Suits`). The tags that an edit looks at are the start tags of the document
(`Markup.Document.exists_outerTag`), so an edit that writes such tags rewrites the
document (`Markup.Document.exists_edited`).
-/

namespace SkinMarkup

/-! ## Start tags that edits find their way in -/

/-- The start tags of a text outside the blocks of declarations, and the names of the
elements that they belong to. -/
def Dialect.outerTags (d : Dialect) (t : Text) : List (List Text × Token) :=
  ((Segment.located [] (scan t).segments).map fun p => (p.1, p.2.token)).filter fun p =>
    p.2.isStart && !d.withholds p.1

namespace Token

/-- Whether no value in a start tag spells one of the words as the name of an
attribute. -/
def Spares (words : List Text) (token : Token) : Prop :=
  ∀ p ∈ token.pieces, ∀ word ∈ words, SkinMarkup.Spares word p.value

/-- A start tag in which an attribute is found, and which can get it if it has not got
it. -/
structure Receives (name : Text) (token : Token) : Prop where
  spares : token.Spares [name]
  legible : ∀ p ∈ token.pieces, p.name = name → p.Legible
  solid : token.pieces = [] → token.name.getLast? ≠ some '\u1680'

/-- A start tag from which an attribute goes as a whole if it is cut out. -/
structure Yields (name : Text) (cut : WrittenPiece → Prop) (token : Token) : Prop where
  spares : token.Spares [name]
  entire : ∀ p ∈ token.pieces, p.name = name → p.Entire
  solid : ∀ p ∈ token.pieces, p.name = name → cut p → token.name.getLast? ≠ some '\u1680'

/-- Whether no attribute for a state would get the name of another one. -/
def Relabelable (old new : Text) (token : Token) : Prop :=
  old = new ∨ ∀ p ∈ token.pieces, ∀ stem ∈ stemFor? old p.name,
    stem ++ '.' :: new ∉ token.pieces.map (·.name)

variable {words : List Text} {name old new : Text} {cut : WrittenPiece → Prop} {token : Token}
  {st : StartTag} {selfClosing : Bool}

instance : Decidable (token.Spares words) :=
  inferInstanceAs (Decidable (∀ p ∈ token.pieces, ∀ word ∈ words, SkinMarkup.Spares word p.value))

instance : Decidable (token.Receives name) :=
  decidable_of_iff (token.Spares [name] ∧ (∀ p ∈ token.pieces, p.name = name → p.Legible) ∧
      (token.pieces = [] → token.name.getLast? ≠ some '\u1680'))
    ⟨fun ⟨h₁, h₂, h₃⟩ => ⟨h₁, h₂, h₃⟩, fun ⟨h₁, h₂, h₃⟩ => ⟨h₁, h₂, h₃⟩⟩

instance [DecidablePred cut] : Decidable (token.Yields name cut) :=
  decidable_of_iff (token.Spares [name] ∧ (∀ p ∈ token.pieces, p.name = name → p.Entire) ∧
      (∀ p ∈ token.pieces, p.name = name → cut p → token.name.getLast? ≠ some '\u1680'))
    ⟨fun ⟨h₁, h₂, h₃⟩ => ⟨h₁, h₂, h₃⟩, fun ⟨h₁, h₂, h₃⟩ => ⟨h₁, h₂, h₃⟩⟩

instance : Decidable (token.Relabelable old new) :=
  inferInstanceAs (Decidable (old = new ∨ ∀ p ∈ token.pieces, ∀ stem ∈ stemFor? old p.name,
    stem ++ '.' :: new ∉ token.pieces.map (·.name)))

section

variable (htag : token.IsTag [] st selfClosing) (hst : st.Sound)

include htag hst

theorem Spares.laid (h : token.Spares words) : st.Laid words :=
  hst.tidy.laid hst.backslash fun p hp => h p (htag.pieces_eq.symm ▸ hp)

theorem IsTag.solid (hlast : token.name.getLast? ≠ some '\u1680') : st.Solid :=
  hst.tidy.solid (htag.name_eq ▸ hlast)

theorem Receives.startTag (h : token.Receives name) : st.Receives name := by
  obtain ⟨hspares, hlegible, hsolid⟩ := h
  rw [Spares, htag.pieces_eq] at hspares
  rw [htag.pieces_eq] at hlegible hsolid
  exact ⟨fun p hp => hspares p hp name List.mem_cons_self, hlegible,
    fun hnil => htag.solid hst (hsolid hnil)⟩

theorem Yields.startTag (h : token.Yields name cut) : st.Yields name cut := by
  obtain ⟨hspares, hentire, hsolid⟩ := h
  rw [Spares, htag.pieces_eq] at hspares
  rw [htag.pieces_eq] at hentire hsolid
  exact ⟨fun p hp => hspares p hp name List.mem_cons_self, hentire,
    fun p hp hname hcut => htag.solid hst (hsolid p hp hname hcut)⟩

omit hst in
theorem Relabelable.startTag (h : token.Relabelable old new) : st.Relabelable old new := by
  intro stem hstem hold hnew
  refine h.resolve_right fun hnames => ?_
  rw [htag.pieces_eq] at hnames
  obtain ⟨p, hp, hname⟩ := List.mem_map.mp hold
  exact hnames p hp stem (hname ▸ stemFor?_append hstem old) hnew

end

end Token

theorem StartTag.Sound.isTag {st : StartTag} {token : Token} {selfClosing : Bool} (h : st.Sound)
    (hname : isXmlName st.name = true)
    (htoken : Markup.IsToken token (.ofStart selfClosing) (.start selfClosing st.content)) :
    token.IsTag [] st selfClosing where
  laid := h.tidy.laid h.backslash fun _ _ => nofun
  named := ne_nil_of_isXmlName hname
  kind := htoken.kind
  text := htoken.text.trans (StartTag.source_start selfClosing st)

theorem Token.IsTag.isToken {words : List Text} {st : StartTag} {token : Token} {selfClosing : Bool}
    (h : token.IsTag words st selfClosing) :
    Markup.IsToken token (.ofStart selfClosing) (.start selfClosing st.content) :=
  ⟨h.kind, h.text.trans (StartTag.source_start selfClosing st).symm⟩

/-- An edit of the states in a document. -/
inductive StateEdit where
  | create (allStates : List Text) (state : Text) (model : Option Text)
  | remove (state : Text) (allStates : List Text)
  | rename (old new : Text)
  | start (state : Option Text)

namespace StateEdit

/-- What an edit makes of a text. -/
def run (d : Dialect) : StateEdit → Text → Outcome
  | create allStates state model, t => createState d allStates state model t
  | remove state allStates, t => removeState d state allStates t
  | rename old new, t => renameState d old new t
  | start state, t => setStartState state t

/-- An edit that writes plain names. -/
def Plain : StateEdit → Prop
  | create allStates state _ => isStateName state = true ∧ ∀ s ∈ allStates, isStateName s = true
  | remove _ _ => True
  | rename old new => isStateName old = true ∧ isStateName new = true
  | start state => ∀ s ∈ activeState state, isStateName s = true

/-- The words that copying a state looks up. -/
def copyWords (model : Text) : List Text :=
  if model = [] then [Word.excludeFrom] else [Word.excludeFrom, Word.includeIn]

theorem isWord_of_mem_copyWords {model : Text} : ∀ word ∈ copyWords model, IsWord word := by
  rw [copyWords]
  split <;> simp [isWord_excludeFrom, isWord_includeIn]

theorem mem_copyWords (model : Text) : Word.excludeFrom ∈ copyWords model := by
  rw [copyWords]
  split <;> exact List.mem_cons_self

theorem mem_copyWords_of_ne {model : Text} (h : model ≠ []) : Word.includeIn ∈ copyWords model := by
  rw [copyWords, if_neg h]
  exact List.mem_cons_of_mem _ List.mem_cons_self

/-- An edit that suits a text: it finds the attributes that it looks up in the tags that
it edits, the root is not erased, and no attribute gets the name of another one. -/
def Suits (d : Dialect) (t : Text) : StateEdit → Prop
  | create allStates _ none =>
    (∀ root ∈ (startTokens t).head?, root.Receives Word.states) ∧
      ∀ p ∈ d.outerTags t, d.isScoped (d.standing p.1.tail) p.2.name = true →
        p.2.Spares [Word.excludeFrom] ∧ (allStates ≠ [] → p.2.Receives Word.includeIn)
  | create _ _ (some model) =>
    (∀ root ∈ (startTokens t).head?, root.Receives Word.states) ∧
      ∀ p ∈ d.outerTags t, p.2.Spares (copyWords model)
  | remove state allStates =>
    (∀ root ∈ (startTokens t).head?, (removeAction d state allStates false root).2 ≠ .erase ∧
        root.Yields Word.states fun p => StateList.entries p.value = [state]) ∧
      ∀ p ∈ d.outerTags t, p.2.Spares [Word.includeIn, Word.excludeFrom] ∧
        p.2.Yields Word.excludeFrom fun p => StateList.entries p.value = [state]
  | rename old new =>
    (∀ root ∈ (startTokens t).head?, root.Spares [Word.states]) ∧
      ∀ p ∈ d.outerTags t, p.2.Spares [Word.includeIn, Word.excludeFrom] ∧ p.2.Relabelable old new
  | start state => ∀ root ∈ (startTokens t).head?,
    (activeState state ≠ none → root.Receives Word.currentState) ∧
      (activeState state = none →
        root.Yields Word.currentState fun p => root.pieces.head? = some p)

instance (action : Action) : Decidable (action = .erase) :=
  match action with
  | .erase => isTrue rfl
  | .keep => isFalse Action.noConfusion
  | .replace _ => isFalse Action.noConfusion
  | .pass => isFalse Action.noConfusion

instance (edit : StateEdit) : Decidable edit.Plain :=
  match edit with
  | create _ _ _ => inferInstanceAs (Decidable (_ ∧ _))
  | remove _ _ => inferInstanceAs (Decidable True)
  | rename _ _ => inferInstanceAs (Decidable (_ ∧ _))
  | start state => inferInstanceAs (Decidable (∀ s ∈ activeState state, isStateName s = true))

instance (d : Dialect) (t : Text) (edit : StateEdit) : Decidable (edit.Suits d t) :=
  match edit with
  | create _ _ none => inferInstanceAs (Decidable (_ ∧ _))
  | create _ _ (some _) => inferInstanceAs (Decidable (_ ∧ _))
  | remove _ _ => inferInstanceAs (Decidable (_ ∧ _))
  | rename _ _ => inferInstanceAs (Decidable (_ ∧ _))
  | start state => inferInstanceAs (Decidable (∀ root ∈ (startTokens t).head?,
      (activeState state ≠ none → root.Receives Word.currentState) ∧
        (activeState state = none →
          root.Yields Word.currentState fun p => root.pieces.head? = some p)))

/-- A document in which a state can be created has a root that gets the state. -/
theorem Suits.receives {d : Dialect} {t : Text} {allStates : List Text} {state : Text}
    {model : Option Text} (h : (create allStates state model).Suits d t) :
    ∀ root ∈ (startTokens t).head?, root.Receives Word.states := by
  cases model with
  | none => exact h.1
  | some model => exact h.1

end StateEdit

/-! ## Documents that are edited -/

namespace Markup

variable {w : Markup} {d : Dialect} {root : Tag} {selfClosing : Bool} {st : StartTag} {x : Place}
  {content : Text}

/-- The start tag at a place outside the blocks of declarations. -/
theorem Document.exists_outerTag (h : w.Document) (htidy : TidyText w.source root)
    (htags : w.tags [] = [root.bare]) (hx : x ∈ w.placed []) (hnames : d.withholds x.names = false) :
    ∃ st token, (x.names, token) ∈ d.outerTags w.source ∧ st.content = x.content ∧ st.Sound ∧
      token.IsTag [] st x.selfClosing := by
  obtain ⟨p, hp, hpnames, htoken⟩ := h.exists_located hx
  obtain ⟨st, hcontent, hst, hname⟩ := htidy.exists_sound h rfl htags (mem_events_of_placed hx)
  refine ⟨st, p.2.token, List.mem_filter.mpr ⟨List.mem_map.mpr ⟨p, hp, by rw [hpnames]⟩, ?_⟩,
    hcontent, hst, ?_⟩
  · simp [isStart_of_isToken x.selfClosing htoken, hnames]
  · rw [IsTokenAt, ← hcontent] at htoken
    exact hst.isTag hname htoken

theorem Document.exists_exposedTag (h : w.Document) (htidy : TidyText w.source root)
    (htags : w.tags [] = [root.bare]) (hexposed : (selfClosing, content) ∈ w.exposed d.shuts)
    (hblock : (Token.ofStart selfClosing content).localName ≠ d.declarations) :
    ∃ st p, p ∈ d.outerTags w.source ∧ st.content = content ∧ st.Sound ∧
      p.2.IsTag [] st selfClosing := by
  obtain ⟨names, hplace, hnames⟩ := exists_place_of_exposed hexposed List.any_nil
  obtain ⟨st, token, hmem, hcontent, hst, htag⟩ := h.exists_outerTag htidy htags hplace
    ((Dialect.withholds_of_not_block hblock names).trans hnames)
  exact ⟨st, _, hmem, hcontent, hst, htag⟩

section

variable (h : w.Document) (htidy : TidyText w.source root) (htags : w.tags [] = [root.bare])

include h htidy htags

/-- **An edit of tags rewrites markup.** -/
theorem Document.exists_edited {Q : Bool → Text → Text → Prop} {σ : Type}
    {act : σ → Token → σ × Action} {flags : σ → List Text → Prop} {edit : List Text → Token → Text}
    {memory : σ} (hedits : Edits d act flags edit) (hflags : flags memory [])
    (hunplaced : ∀ opened token, edit opened { token with start := 0 } = edit opened token)
    (hkeep : ∀ (st : StartTag) selfClosing, st.Sound → Q selfClosing st.content st.content)
    (htag : ∀ p ∈ d.outerTags w.source, ∀ (st : StartTag) selfClosing, st.Sound →
      p.2.IsTag [] st selfClosing → ∃ st' : StartTag,
        Q selfClosing st.content st'.content ∧ edit p.1.tail p.2 = st'.text selfClosing) :
    let w₁ := w.rewriteAt (editedContent d edit) []
    reviseText act memory w.source = ⟨w₁.source, true⟩ ∧ Rewritten Q w w₁ := by
  have hplaces : ∀ x ∈ w.placed [], d.withholds x.names = false → ∃ content',
      Q x.selfClosing x.content content' ∧ edit x.names.tail (.ofStart x.selfClosing x.content) =
        (Event.start x.selfClosing content').source := by
    intro x hx hnames
    obtain ⟨st, token, hmem, hcontent, hst, hisTag⟩ := h.exists_outerTag htidy htags hx hnames
    obtain ⟨st', hrelated, htext⟩ := htag _ hmem st x.selfClosing hst hisTag
    rw [← hcontent]
    exact ⟨st'.content, hrelated, by
      rw [← hisTag.isToken.ofStart_eq, hunplaced, StartTag.source_start]; exact htext⟩
  refine ⟨h.reviseText_edits hedits hflags hunplaced fun x hx hnames => ?_,
    rewritten_rewriteAt fun x hx => ?_⟩
  · obtain ⟨content', -, htext⟩ := hplaces x hx hnames
    exact ⟨content', htext⟩
  · rw [editedContent]
    split
    · obtain ⟨st, hcontent, hst, -⟩ := htidy.exists_sound h rfl htags (mem_events_of_placed hx)
      exact hcontent ▸ hkeep st x.selfClosing hst
    · next hnames =>
      obtain ⟨content', hrelated, htext⟩ := hplaces x hx (Bool.eq_false_iff.mpr hnames)
      rw [htext, contentOf_source]
      exact hrelated

variable (hfirst : w.first? = some (selfClosing, st.content)) (hst : st.Sound)

include hfirst hst

/-- The root is a tag among the others, unless it is a block of declarations. -/
theorem Document.exists_rootTag (hnames : d.withholds [tagName selfClosing st.content] = false) :
    ∃ token, ([tagName selfClosing st.content], token) ∈ d.outerTags w.source ∧
      token.IsTag [] st selfClosing := by
  obtain ⟨st₀, token, hmem, hcontent, hst₀, htag⟩ :=
    h.exists_outerTag htidy htags (place_of_first hfirst []) hnames
  obtain rfl := hst₀.toValid.content_injective hst.toValid hcontent
  exact ⟨token, hmem, htag⟩

end

end Markup

end SkinMarkup
