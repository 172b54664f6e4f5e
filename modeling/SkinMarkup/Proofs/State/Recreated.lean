import SkinMarkup.Proofs.State.FramedEdits
import SkinMarkup.Proofs.State.Fronted
import SkinMarkup.Proofs.State.SettledTag

/-!
# A state created twice

Creating a state that was just created changes nothing (`createState_createState`). Every
start tag lasts as the first time leaves it: a tag in which a state was copied is settled
(`lasting_copy`), a component that was kept out of a state is kept out of it
(`lasting_blank`), and the root lists the state (`lasting_root`).
-/

namespace SkinMarkup

section

variable {d : Dialect} {allStates opened : List Text} {state model : Text} {token : Token}
  {st st' : StartTag} {selfClosing : Bool} {edit : List Text → Token → Text}

/-! ## Start tags -/

/-- A tag that can be edited, in the place of another one of its name. -/
theorem Token.IsTag.of_ready (h : token.IsTag [] st selfClosing) (hready : st'.Ready)
    (hname : st'.name = st.name) :
    Token.IsTag [] { token with text := st'.text selfClosing } st' selfClosing :=
  ⟨hready.listed.tidy.laid hready.backslash fun _ _ => nofun, hname ▸ h.named, h.kind, rfl⟩

/-- A tag that keeps its name lasts if an edit does nothing to it. -/
theorem Token.IsTag.lasting (h : token.IsTag [] st selfClosing) (hready : st'.Ready)
    (hname : st'.name = st.name)
    (hkeeps : token.localName ≠ d.declarations → ∀ opened', d.Trims opened opened' →
      edit opened' { token with text := st'.text selfClosing } = st'.text selfClosing) :
    Lasting d edit opened token (st'.text selfClosing) where
  isCut := (h.of_ready hready hname).isCut
  renames := Or.inl (by rw [(h.of_ready hready hname).name_eq, hname, h.name_eq])
  keeps := hkeeps

/-- **A tag in which a state was copied lasts.** -/
theorem lasting_copy (h : token.IsTag [] st selfClosing) (hready : st.Ready)
    (hstate : isStateName state = true) (hmodel : model ≠ [] → isStateName model = true) :
    Lasting d (fun _ token => copyTag token.kind model state token.text) opened token
      (copyTag token.kind model state token.text) := by
  have henrolled := hready.enrolled_enrolledCopy hstate model
  rw [h.kind, h.text, hready.copyTag_text hstate]
  refine h.lasting henrolled.successor.ready henrolled.successor.name fun _ _ _ => ?_
  dsimp only
  rw [h.kind, henrolled.successor.ready.copyTag_text hstate,
    (StartTag.settled_enrolledCopy hstate hmodel st).enrolledCopy_eq]

/-! ## A first attribute -/

theorem not_mem_value_usual {words : List Text} {name value : Text}
    (h : (WrittenPiece.usual name value).Laid words) : '"' ∉ value := by
  obtain ⟨_, ⟨⟩, -, hquote⟩ := h.quoted
  exact hquote

/-- A tag with a first attribute lasts if an edit does nothing to it. -/
theorem Token.IsTag.lasting_fronted (h : token.IsTag [] st selfClosing) {p : WrittenPiece}
    (hp : p.Laid [])
    (hplace : opened = [] ∨ d.isScoped (d.standing opened) token.name = true ∧
      d.isContainer (localOf (trimEnd token.name)) = false)
    (hkeeps : token.localName ≠ d.declarations → ∀ opened', d.Trims opened opened' →
      edit opened' { token with text := (st.fronted p).text selfClosing } =
        (st.fronted p).text selfClosing) :
    Lasting d edit opened token ((st.fronted p).text selfClosing) where
  isCut := h.laid.isCut_fronted hp h.kind
  renames := by
    rw [h.name_eq] at hplace ⊢
    rw [h.laid.name_fronted hp h.kind]
    exact Or.inr ⟨rfl, hplace⟩
  keeps := hkeeps

/-- A component without attributes gets a list of the states it appears in. -/
theorem lasting_included (h : token.IsTag [] st selfClosing) (hready : st.Ready)
    (hnil : st.pieces = []) (hstates : ∀ s ∈ allStates, isStateName s = true) (hne : allStates ≠ [])
    (hscoped : d.isScoped (d.standing opened) token.name = true)
    (hcontainer : d.isContainer (localOf (trimEnd token.name)) = false) :
    Lasting d (blankEdit d allStates state) opened token
      (editOr (scopeOut token.kind allStates state) token.text) := by
  have hfits : Fits [] [] (StateList.render allStates) := fits_names nofun hstates
  have hp := StartTag.laid_usual isWord_includeIn hfits
  have hnone : ∀ name, st.value? name = none := fun name => by simp [StartTag.value?, hnil]
  have hscope : editOr (scopeOut token.kind allStates state) token.text =
      (st.fronted (.usual Word.includeIn (StateList.render allStates))).text selfClosing := by
    rw [h.kind, h.text, editOr, scopeOut, hready.isSome_find?_iff rfl, hready.isSome_find?_iff rfl,
      hnone, hnone, Option.isSome_none, if_neg (by decide), if_neg (by decide), if_neg hne,
      insertAttribute_eq, h.laid.insertRaw_bare hnil, Option.getD_some]
  obtain ⟨slot, hfind, -⟩ := h.laid.exists_slot_fronted Word.includeIn (not_mem_value_usual hp)
    selfClosing
  rw [hscope]
  refine h.lasting_fronted hp (Or.inr ⟨hscoped, hcontainer⟩) fun _ opened' _ => ?_
  rw [blankEdit]
  split
  · have hincluded : scopeOut token.kind allStates state
        ((st.fronted (.usual Word.includeIn (StateList.render allStates))).text selfClosing) = none :=
      if_pos (by rw [hfind]; rfl)
    rw [editOr, hincluded, Option.getD_none]
  · rfl

/-- **A component that was kept out of a state lasts.** -/
theorem lasting_blank (hsolid : trimEnd d.declarations = d.declarations)
    (h : token.IsTag [] st selfClosing) (hready : st.Ready) (hstate : isStateName state = true)
    (hstates : ∀ s ∈ allStates, isStateName s = true)
    (hcontainer : allStates ≠ [] → d.isScoped (d.standing opened) token.name = true →
      st.pieces = [] → d.isContainer (localOf (trimEnd token.name)) = false) :
    Lasting d (blankEdit d allStates state) opened token
      (blankEdit d allStates state opened token) := by
  by_cases hscoped : d.isScoped (d.standing opened) token.name = true
  · rw [blankEdit, if_pos hscoped]
    by_cases hfirst : allStates ≠ [] ∧ st.pieces = []
    · obtain ⟨hne, hnil⟩ := hfirst
      exact lasting_included h hready hnil hstates hne hscoped (hcontainer hne hscoped hnil)
    · have hend : allStates ≠ [] → st.pieces = [] → st.Solid := fun hne hnil =>
        absurd ⟨hne, hnil⟩ hfirst
      have henrolled := hready.enrolled_enrolledBlank hstate
        fun s hs => quiet_of_isStateName (hstates s hs)
      rw [h.kind, h.text, hready.enrolledBlank_text allStates state hend]
      refine h.lasting henrolled.successor.ready henrolled.successor.name fun _ opened' _ => ?_
      rw [blankEdit]
      split
      · dsimp only
        rw [h.kind, henrolled.successor.ready.enrolledBlank_text allStates state fun hne hnil =>
            absurd ⟨hne, henrolled.nonempty hnil⟩ hfirst,
          StartTag.enrolledBlank_enrolledBlank hstate]
      · rfl
  · rw [blankEdit, if_neg hscoped, h.text]
    refine h.lasting hready rfl fun _ opened' htrims => ?_
    -- It does not turn into a component directly below the root.
    rw [← h.text]
    exact if_neg fun hscoped' => hscoped (htrims.isScoped hsolid hscoped')

/-! ## The list on the root -/

/-- The root's tag with a first attribute. -/
theorem declaredTag_bare (h : token.IsTag [] st selfClosing) (hready : st.Ready)
    (hdeclaring : st.Declaring) (hnil : st.pieces = []) (state : Text) :
    declaredTag state token = (st.fronted (.usual Word.states state)).text selfClosing := by
  have hnone : ValueSlot.find? Word.states token.text = none := by
    rw [h.text]
    exact hready.listed.tidy.find?_of_value?_eq_none (hready.clear_states hdeclaring)
      isWord_states.nonempty isWord_states.chars (by simp [StartTag.value?, hnil]) selfClosing
  rw [declaredTag, hnone, Option.isSome_none, if_neg (by decide), h.kind, h.text, insertAttribute_eq,
    h.laid.insertRaw_bare hnil]

/-- The root's tag with more attributes. -/
theorem declaredTag_text (h : token.IsTag [] st selfClosing) (hready : st.Ready)
    (hdeclaring : st.Declaring) (hne : st.pieces ≠ []) (state : Text) :
    declaredTag state token = (st.enrolledRoot state).text selfClosing := by
  have htext := hready.enrolledRoot_text hdeclaring (fun hnil => absurd hnil hne) state selfClosing
  rw [← h.text, ← h.kind] at htext
  exact Option.some.inj ((some_declaredTag state token).trans htext)

section

variable (h : token.IsTag [] st selfClosing) (hready : st.Ready) (hdeclaring : st.Declaring)
  (hstate : isStateName state = true)

include h hready hdeclaring hstate

/-- **A state is declared once.** -/
theorem declaredTag_declaredTag :
    declaredTag state { token with text := declaredTag state token } = declaredTag state token := by
  by_cases hnil : st.pieces = []
  · have hfits : Fits [] [] state := fits_of_isStateName hstate
    have hp := StartTag.laid_usual isWord_states hfits
    obtain ⟨slot, hfind, hslot⟩ := h.laid.exists_slot_fronted Word.states (not_mem_value_usual hp)
      selfClosing
    have hextend : StateList.extend Word.states state (fun _ => true)
        ((st.fronted (.usual Word.states state)).text selfClosing) = none := by
      rw [StateList.extend, hfind]
      simp [hslot, StateList.entries_of_isStateName hstate]
    rw [declaredTag_bare h hready hdeclaring hnil, declaredTag]
    dsimp only
    rw [hfind, Option.isSome_some, if_pos rfl, editOr, hextend, Option.getD_none]
  · have hsuccessor := (hready.successor_enrolledRoot hdeclaring hstate).1
    have hne : (st.enrolledRoot state).pieces ≠ [] := by
      intro hnone
      have hvalue := StartTag.value?_enrolledRoot state st
      rw [StartTag.value?, hnone] at hvalue
      cases hvalue
    rw [declaredTag_text h hready hdeclaring hnil,
      declaredTag_text (h.of_ready hsuccessor.ready hsuccessor.name) hsuccessor.ready
        (hsuccessor.declaring hdeclaring) hne,
      StartTag.enrolledRoot_enrolledRoot hstate]

/-- The root's tag lasts if an edit does nothing to it. -/
theorem lasting_declaredTag
    (hkeeps : token.localName ≠ d.declarations →
      edit [] { token with text := declaredTag state token } = declaredTag state token) :
    Lasting d edit [] token (declaredTag state token) := by
  have hkept : token.localName ≠ d.declarations → ∀ opened', d.Trims [] opened' →
      edit opened' { token with text := declaredTag state token } = declaredTag state token := by
    rintro hname _ ⟨⟩
    exact hkeeps hname
  by_cases hnil : st.pieces = []
  · have hfits : Fits [] [] state := fits_of_isStateName hstate
    have hp := StartTag.laid_usual isWord_states hfits
    rw [declaredTag_bare h hready hdeclaring hnil] at hkept ⊢
    exact h.lasting_fronted hp (Or.inl rfl) hkept
  · have hsuccessor := (hready.successor_enrolledRoot hdeclaring hstate).1
    rw [declaredTag_text h hready hdeclaring hnil] at hkept ⊢
    exact h.lasting hsuccessor.ready hsuccessor.name hkept

/-- **Nothing is copied into the root's tag** if it was settled before the state was
declared. -/
theorem copyTag_declaredTag (hsettled : st.Settled model state) :
    copyTag token.kind model state (declaredTag state token) = declaredTag state token := by
  rw [h.kind]
  by_cases hnil : st.pieces = []
  · rw [declaredTag_bare h hready hdeclaring hnil]
    have hp : ∀ {words : List Text}, (WrittenPiece.usual Word.states state).Laid words :=
      StartTag.laid_usual isWord_states (fits_of_isStateName hstate)
    have hnone : ∀ {name condition}, IsWord name → Word.states ≠ name →
        editOr (StateList.extend name state condition)
          ((st.fronted (.usual Word.states state)).text selfClosing) =
            (st.fronted (.usual Word.states state)).text selfClosing := by
      intro name condition hname hne
      rw [editOr, StateList.extend, h.laid.find?_fronted hp hname hne]
      rfl
    have hcopied : copyAttributes (.ofStart selfClosing) model state
        ((st.fronted (.usual Word.states state)).text selfClosing) =
          (st.fronted (.usual Word.states state)).text selfClosing := by
      have hstem : stemFor? model Word.states = none := stemFor?_of_dot isWord_states.dot model
      have hpieces : copiedAttributes model state [.usual Word.states state] = [] := by
        simp [copiedAttributes, WrittenPiece.usual, hstem]
      rw [copyAttributes, h.laid.ofText_fronted hp, hpieces]
    rw [copyTag, hnone isWord_excludeFrom (by decide), hnone isWord_excludeFrom (by decide)]
    dsimp only
    rw [hnone isWord_includeIn (by decide), hcopied, ite_self]
  · have hsuccessor := (hready.successor_enrolledRoot hdeclaring hstate).1
    rw [declaredTag_text h hready hdeclaring hnil, hsuccessor.ready.copyTag_text hstate,
      hsettled.enrolledRoot.enrolledCopy_eq]

end

end

/-! ## Documents -/

section

variable {t : Text} {root : Tag} {d : Dialect} {allStates : List Text} {state model : Text}
  {front back : List Segment} {s : Segment}

/-- **The root's tag can be edited,** and its list of states is one. -/
theorem Editable.exists_rootTag (h : Editable t root) (hdoctype : NoDoctype t)
    (hparse : parseStrict t = .ok root) (hsplit : (scan t).segments = front ++ s :: back)
    (hfront : ∀ x ∈ front, x.token.isElement = false) (hstart : s.token.isStart = true) :
    ∃ st selfClosing, s.token.IsTag [] st selfClosing ∧ st.Ready ∧ st.Declaring := by
  have hmem : s ∈ (scan t).segments := by
    rw [hsplit]
    exact List.mem_append_right front List.mem_cons_self
  obtain ⟨st, selfClosing, hst, hready⟩ := h.exists_ready hdoctype hparse hmem hstart
  refine ⟨st, selfClosing, hst, hready, fun p hp => h.declared s.token ?_ p (hst.pieces_eq ▸ hp)⟩
  have hinert : ((front.map (·.token)).filter (·.isStart)) = [] := by
    refine List.filter_eq_nil_iff.mpr fun token htoken => ?_
    obtain ⟨x, hx, rfl⟩ := List.mem_map.mp htoken
    simp [Token.isStart_eq_false (hfront x hx)]
  rw [Markup.startTokens_eq, hsplit, List.map_append, List.filter_append, hinert, List.map_cons,
    List.nil_append, List.filter_cons_of_pos hstart]
  rfl

/-- The root lasts, given what it was edited to. -/
theorem lasting_root {edit : List Text → Token → Text} {st st' : StartTag} {selfClosing : Bool}
    (text : Text) (hst : s.token.IsTag [] st selfClosing)
    (hst' : (s.retag text).token.IsTag [] st' selfClosing) (hname : st'.name = st.name)
    (hready : st'.Ready) (hdeclaring : st'.Declaring) (hstate : isStateName state = true)
    (hkeeps : s.token.localName ≠ d.declarations →
      edit [] ((s.retag text).retag (declaredTag state (s.retag text).token)).token =
        declaredTag state (s.retag text).token) :
    Lasting d edit [] s.token (declaredTag state (s.retag text).token) ∧
      declaredTag state ((s.retag text).retag (declaredTag state (s.retag text).token)).token =
        declaredTag state (s.retag text).token := by
  have hsame : (s.retag text).token.name = s.token.name := by
    rw [hst'.name_eq, hname, hst.name_eq]
  have hlocal : (s.retag text).token.localName = s.token.localName := congrArg localOf hsame
  have hlasting : Lasting d edit [] (s.retag text).token (declaredTag state (s.retag text).token) :=
    lasting_declaredTag hst' hready hdeclaring hstate fun hblock => hkeeps (hlocal ▸ hblock)
  refine ⟨⟨hlasting.isCut, ?_, fun hblock => hlasting.keeps (hlocal.symm ▸ hblock)⟩,
    declaredTag_declaredTag hst' hready hdeclaring hstate⟩
  rw [← hsame]
  exact hlasting.renames

section

variable (h : Editable t root) (hdoctype : NoDoctype t) (hparse : parseStrict t = .ok root)
  (hsolid : trimEnd d.declarations = d.declarations)

include h hdoctype hparse hsolid

/-- **A state that is copied again stays as it is.** -/
theorem createState_copy_twice (hstate : isStateName state = true)
    (hmodel : model ≠ [] → isStateName model = true) :
    createState d allStates state (some model)
        (createState d allStates state (some model) t).text =
      createState d allStates state (some model) t := by
  refine (edits_copy d model state).andThen_declareState_twice hsolid trivial
    (h.exists_element hdoctype hparse) (fun p hp hstart _ => ?_) ?_ fun _ _ => rfl
  · obtain ⟨st, selfClosing, hst, hready⟩ :=
      h.exists_ready hdoctype hparse (Segment.mem_of_mem_located hp) hstart
    exact lasting_copy hst hready hstate hmodel
  · rintro front s back hsplit hfront hstart _ rfl
    obtain ⟨st, selfClosing, hst, hready, hdeclaring⟩ :=
      h.exists_rootTag hdoctype hparse hsplit hfront hstart
    by_cases hblock : s.token.localName = d.declarations
    · rw [edited_of_withholds (Dialect.withholds_of_block hblock [])]
      exact lasting_root s.token.text hst hst rfl hready hdeclaring hstate
        fun hne => absurd hblock hne
    · have hnames : d.withholds [s.token.name] = false := Dialect.withholds_of_not_block hblock []
      have henrolled := (hready.enrolled_enrolledCopy hstate model).successor
      have htag := hst.of_ready henrolled.ready henrolled.name
      rw [edited_of_isStart hstart hnames, hst.kind, hst.text, hready.copyTag_text hstate]
      exact lasting_root _ hst htag henrolled.name henrolled.ready (henrolled.declaring hdeclaring)
        hstate fun _ => copyTag_declaredTag htag henrolled.ready (henrolled.declaring hdeclaring)
          hstate (StartTag.settled_enrolledCopy hstate hmodel st)

/-- **A blank state that is created again stays as it is.** -/
theorem createState_blank_twice (hstate : isStateName state = true)
    (hstates : ∀ s ∈ allStates, isStateName s = true)
    (hcontainer : allStates ≠ [] → ∀ p ∈ Segment.located [] (scan t).segments,
      p.2.token.isStart = true → d.isScoped (d.standing p.1.tail) p.2.token.name = true →
      p.2.token.pieces = [] → d.isContainer (localOf (trimEnd p.2.token.name)) = false) :
    createState d allStates state none (createState d allStates state none t).text =
      createState d allStates state none t := by
  have hroot : ∀ token, blankEdit d allStates state [] token = token.text := fun _ => rfl
  refine (edits_blank d allStates state).andThen_declareState_twice hsolid rfl
    (h.exists_element hdoctype hparse) (fun p hp hstart _ => ?_) ?_ fun _ _ => rfl
  · obtain ⟨st, selfClosing, hst, hready⟩ :=
      h.exists_ready hdoctype hparse (Segment.mem_of_mem_located hp) hstart
    exact lasting_blank hsolid hst hready hstate hstates fun hne hscoped hnil =>
      hcontainer hne p hp hstart hscoped (hst.pieces_eq.trans hnil)
  · rintro front s back hsplit hfront hstart _ rfl
    obtain ⟨st, selfClosing, hst, hready, hdeclaring⟩ :=
      h.exists_rootTag hdoctype hparse hsplit hfront hstart
    have hself : edited d (blankEdit d allStates state) [s.token.name] s =
        s.retag s.token.text := by
      rw [edited]
      split <;> rfl
    rw [hself]
    exact lasting_root s.token.text hst hst rfl hready hdeclaring hstate fun _ => hroot _

end

end

/-- **Creating a state twice is the same as once.** -/
theorem createState_createState {t : Text} {root : Tag} {d : Dialect} (h : Editable t root)
    (hdoctype : NoDoctype t) (hparse : parseStrict t = .ok root)
    (hsolid : trimEnd d.declarations = d.declarations) (allStates : List Text) (state : Text)
    (model : Option Text) (hstates : ∀ s ∈ state :: allStates, isStateName s = true)
    (hmodel : ∀ m ∈ model, m ≠ [] → isStateName m = true)
    (hcontainer : model = none → allStates ≠ [] → ∀ p ∈ Segment.located [] (scan t).segments,
      p.2.token.isStart = true → d.isScoped (d.standing p.1.tail) p.2.token.name = true →
      p.2.token.pieces = [] → d.isContainer (localOf (trimEnd p.2.token.name)) = false) :
    createState d allStates state model (createState d allStates state model t).text =
      createState d allStates state model t := by
  obtain ⟨hstate, hstates⟩ := List.forall_mem_cons.mp hstates
  cases model with
  | none => exact createState_blank_twice h hdoctype hparse hsolid hstate hstates (hcontainer rfl)
  | some model => exact createState_copy_twice h hdoctype hparse hsolid hstate (hmodel model rfl)

/-- A component without attributes, one in a container, and a block of declarations. -/
theorem createState_createState_held :
    let t := "<e:Skin states='up'><Rect includeIn='up' y.up='1'/><Line excludeFrom='up'/>
      <Array><Oval/></Array><Declarations y.up='1'/></e:Skin>".toList
    let up := ['u', 'p']
    let held := ['h', 'e', 'l', 'd']
    let d := Dialect.standard
    ∃ root, (Editable t root ∧ NoDoctype t ∧ parseStrict t = .ok root ∧
        trimEnd d.declarations = d.declarations ∧ (∀ s ∈ [held, up], isStateName s = true) ∧
        ∀ p ∈ Segment.located [] (scan t).segments, p.2.token.isStart = true →
          d.isScoped (d.standing p.1.tail) p.2.token.name = true → p.2.token.pieces = [] →
          d.isContainer (localOf (trimEnd p.2.token.name)) = false) ∧
      ∀ model ∈ [none, some [], some up],
        createState d [up] held model (createState d [up] held model t).text =
          createState d [up] held model t := by
  intro t up held d
  have hstates : ∀ s ∈ [held, up], isStateName s = true := by decide
  have hsolid : trimEnd d.declarations = d.declarations := by decide
  have hany : ((parseStrict t).toOption.any fun root => decide (Editable t root) &&
      decide (NoDoctype t)) = true := by
    decide +kernel
  have hcontainer : ∀ p ∈ Segment.located [] (scan t).segments, p.2.token.isStart = true →
      d.isScoped (d.standing p.1.tail) p.2.token.name = true → p.2.token.pieces = [] →
      d.isContainer (localOf (trimEnd p.2.token.name)) = false := by
    decide +kernel
  obtain ⟨root, hparse, hproperties⟩ := exists_of_any_toOption hany
  simp only [Bool.and_eq_true, decide_eq_true_eq] at hproperties
  obtain ⟨heditable, hdoctype⟩ := hproperties
  have hmodels : ∀ model ∈ [none, some [], some up], ∀ m ∈ model, m ≠ [] → isStateName m = true := by
    decide
  refine ⟨root, ⟨heditable, hdoctype, hparse, hsolid, hstates, hcontainer⟩, fun model hmodel => ?_⟩
  exact createState_createState heditable hdoctype hparse hsolid [up] held model hstates
    (hmodels model hmodel) fun _ _ => hcontainer

/-- A component whose name gets shorter can turn into a container, and its children are
directly below the root then. A document type declaration in lower case can hide tags that
are no tags to a reader, and comments that a quote from there turns into tags. -/
theorem createState_createState_ne :
    let d := Dialect.standard
    let array := "<Skin><Array\u1680><Foo/></Array\u1680></Skin>".toList
    let hidden := "<!doctype x <<b><c x.a=b\"c d\"/>>><!-- includeIn=\"a\" \" --><r/>".toList
    ∀ input ∈ [(array, none), (hidden, some ['a'])], ∃ root, Editable input.1 root ∧
      containsWord "<!DOCTYPE".toList input.1 = false ∧ parseStrict input.1 = .ok root ∧
      (∀ s ∈ [['q'], ['a']], isStateName s = true) ∧
      (createState d [['a']] ['q'] input.2 (createState d [['a']] ['q'] input.2 input.1).text).text ≠
        (createState d [['a']] ['q'] input.2 input.1).text := by
  intro d array hidden
  have hall : ∀ input ∈ [(array, none), (hidden, some ['a'])],
      ((parseStrict input.1).toOption.any fun root => decide (Editable input.1 root)) = true ∧
      containsWord "<!DOCTYPE".toList input.1 = false ∧
      (createState d [['a']] ['q'] input.2 (createState d [['a']] ['q'] input.2 input.1).text).text ≠
        (createState d [['a']] ['q'] input.2 input.1).text := by
    decide +kernel
  intro input hinput
  obtain ⟨hany, hdoctype, hne⟩ := hall input hinput
  obtain ⟨root, hparse, heditable⟩ := exists_of_any_toOption hany
  exact ⟨root, of_decide_eq_true heditable, hdoctype, hparse, by decide, hne⟩

end SkinMarkup
