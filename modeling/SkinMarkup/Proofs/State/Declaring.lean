import SkinMarkup.Proofs.State.Created
import SkinMarkup.Proofs.State.SpelledLists
import SkinMarkup.Proofs.Tag.Scoped
import SkinMarkup.Tag.Query

/-!
# A new state is declared

Creating a state changes lists of states and attributes for that state alone. So a
state whose name is nowhere in a document leaves the names and namespaces of all
elements as they are (`Markup.Rewritten.forall₂_alike`), and with them what the
elements below the root declare. The list on the root gets the state as its last
entry: `declared_of_createState`.
-/

namespace SkinMarkup

/-! ## Attributes that stay -/

/-- The declaration of a prefix has nothing to do with a state that is not in the
prefix. -/
theorem Word.concerns_of_declaredBy {state name p : Text}
    (h : Namespace.declaredBy name = some p) (hfresh : ¬ state <:+: p) :
    Word.concerns state name = false := by
  have hname : name = Namespace.keyword ∨ name = Namespace.marker ++ p := by
    unfold Namespace.declaredBy at h
    split at h
    · next hkeyword => exact Or.inl hkeyword
    · exact Or.inr (after?_eq_some h)
  have hlists : Word.lists.contains name = false := by
    rcases hname with rfl | rfl <;>
      simp [Word.lists, Word.includeIn, Word.excludeFrom, Word.states, Namespace.keyword,
        Namespace.marker]
  have hstem : stemFor? state name = none := by
    rw [Option.eq_none_iff_forall_ne_some]
    intro stem hstem
    have heq := (mem_of_stemFor? hstem).1
    rcases hname with rfl | rfl
    · have hdot : '.' ∈ Namespace.keyword := by simp [heq]
      revert hdot
      decide
    · rcases List.append_eq_append_iff.mp heq with ⟨x, rfl, hx⟩ | ⟨x, hmarker, hx⟩
      · exact hfresh ⟨x ++ ['.'], [], by simp [hx]⟩
      · cases x with
        | nil => exact hfresh ⟨['.'], [], by simpa using hx⟩
        | cons c cs =>
          have hdot : '.' ∈ Namespace.marker := by
            rw [hmarker, ← (List.cons.inj hx).1]
            simp
          revert hdot
          decide
  rw [Word.concerns, hlists, hstem]
  rfl

namespace Markup

variable {state content content' : Text} {selfClosing : Bool} {w w' : Markup}

/-- The entries that have nothing to do with a state stay. -/
theorem Touches.entries_eq (h : Touches state selfClosing content content') :
    (entriesOf content').filter (fun e => !Word.concerns state e.1) =
      (entriesOf content).filter fun e => !Word.concerns state e.1 := by
  obtain ⟨st, st', rfl, rfl, hst, htouched⟩ := h
  rw [htouched.valid.entriesOf_content, hst.entriesOf_content, List.filter_map, List.filter_map]
  exact congrArg (List.map WrittenPiece.read) htouched.unconcerned

/-- So do the values of attributes that have nothing to do with the state. -/
theorem Touches.valueIn?_eq (h : Touches state selfClosing content content') {word : Text}
    (hword : Word.concerns state word = false) :
    valueIn? word (entriesOf content') = valueIn? word (entriesOf content) := by
  rw [valueIn?, valueIn?, find?_of_filter h.entries_eq]
  intro e he
  rw [of_decide_eq_true he, hword]
  rfl

/-- So do the declared namespaces. -/
theorem Touches.uriOf?_eq (h : Touches state selfClosing content content') {p : Text}
    (hfresh : ¬ state <:+: p) :
    Namespace.uriOf? p (declarationsOf content') = Namespace.uriOf? p (declarationsOf content) := by
  simp only [Namespace.uriOf?, declarationsOf, Attribute.declarations, List.filterMap_map,
    List.find?_filterMap]
  rw [find?_of_filter h.entries_eq]
  intro e he
  have hdeclared : Namespace.declaredBy e.1 = some p := by
    rw [Option.any_eq_true] at he
    obtain ⟨binding, hbinding, hsame⟩ := he
    obtain ⟨q, hq, rfl⟩ := Option.map_eq_some_iff.mp hbinding
    rw [← of_decide_eq_true hsame]
    exact hq
  rw [Word.concerns_of_declaredBy hdeclared hfresh]
  rfl

end Markup

/-! ## Trees with the same declarations -/

/-- Trees with the same names, namespaces and declared names. -/
inductive Tag.Alike : Tag → Tag → Prop where
  | intro {x x' : Tag} (localName : x'.localName = x.localName) (uri : x'.head.uri = x.head.uri)
      (named : x'.head.value? Word.name = x.head.value? Word.name)
      (tags : List.Forall₂ Alike x.tags x'.tags) : Alike x x'

namespace Tag

variable {x x' : Tag}

theorem childrenNamed_bare (localName uri : Text) (x : Tag) :
    x.bare.childrenNamed localName uri = (x.childrenNamed localName uri).map bare := by
  rw [childrenNamed, childrenNamed, bare_tags, List.filter_map]
  congr 1
  refine List.filter_congr fun child _ => ?_
  simp only [Function.comp_apply, bare_localName, bare_head]
  rfl

theorem statesInChildren_bare (x : Tag) : x.bare.statesInChildren = x.statesInChildren := by
  have huri : x.bare.head.uri = x.head.uri := by rw [bare_head]; rfl
  rw [statesInChildren, statesInChildren, huri, childrenNamed_bare, List.head?_map]
  cases (x.childrenNamed Word.states x.head.uri).head? with
  | none => rfl
  | some block =>
    rw [Option.map_some]
    dsimp only
    rw [childrenNamed_bare, List.filterMap_map]
    refine List.filterMap_congr fun declaration _ => ?_
    rw [Function.comp_apply, bare_head, TagHead.value?_bare]

theorem Alike.childrenNamed (h : Alike x x') (localName uri : Text) :
    List.Forall₂ Alike (x.childrenNamed localName uri) (x'.childrenNamed localName uri) := by
  obtain ⟨-, -, -, htags⟩ := h
  refine List.rel_filter ?_ htags
  rintro a b ⟨hlocal, huri, -, -⟩
  dsimp only
  rw [hlocal, huri]

/-- **What the children of a root declare is the same in such trees.** -/
theorem Alike.statesInChildren_eq (h : Alike x x') : x'.statesInChildren = x.statesInChildren := by
  have huri : x'.head.uri = x.head.uri := by
    obtain ⟨-, huri, -, -⟩ := h
    exact huri
  have hblocks := h.childrenNamed Word.states x.head.uri
  rw [statesInChildren, statesInChildren, huri]
  generalize x.childrenNamed Word.states x.head.uri = blocks at hblocks
  generalize x'.childrenNamed Word.states x.head.uri = blocks' at hblocks
  cases hblocks with
  | nil => rfl
  | cons hblock _ =>
    have hdeclarations := hblock.childrenNamed Word.state x.head.uri
    rw [List.head?_cons, List.head?_cons]
    dsimp only
    generalize Tag.childrenNamed Word.state x.head.uri _ = declarations at hdeclarations ⊢
    generalize Tag.childrenNamed Word.state x.head.uri _ = declarations' at hdeclarations ⊢
    induction hdeclarations with
    | nil => rfl
    | cons hdeclaration _ ih =>
      obtain ⟨-, -, hnamed, -⟩ := hdeclaration
      rw [List.filterMap_cons, List.filterMap_cons, hnamed, ih]

end Tag

namespace Markup

variable {state : Text} {w w' : Markup} {scopes scopes' : List (List Namespace)}

theorem alike_ofContent {content content' : Text} {selfClosing : Bool} {leaf leaf' : Option Leaf}
    {tags tags' : List Tag} (h : Touches state selfClosing content content')
    (hfresh : ¬ state <:+: WrittenAttribute.elementName content)
    (hscopes : ∀ p, ¬ state <:+: p → Namespace.resolve p scopes' = Namespace.resolve p scopes)
    (htags : List.Forall₂ Tag.Alike tags tags') :
    Tag.Alike (Tag.ofContent scopes content leaf tags)
      (Tag.ofContent scopes' content' leaf' tags') := by
  have hname := h.substitutes.name
  have hword : Word.concerns state Word.name = false := by
    rw [Word.concerns, StartTag.stemFor?_of_isWord isWord_name]
    rfl
  refine .intro ?_ ?_ ?_ htags
  · exact congrArg localOf hname
  · simp only [Tag.ofContent, hname]
    cases hprefix : prefixOf (WrittenAttribute.elementName content) with
    | none => rfl
    | some p =>
      have hpart : p <:+: WrittenAttribute.elementName content := by
        obtain ⟨⟨front, back⟩, hcut, rfl⟩ := Option.map_eq_some_iff.mp hprefix
        rw [cutAt_eq_some hcut]
        exact (List.prefix_append _ _).isInfix
      have hp : ¬ state <:+: p := fun hin => hfresh (hin.trans hpart)
      rw [Option.bind_some, Option.bind_some, Namespace.resolve_cons, Namespace.resolve_cons,
        hscopes p hp]
      exact congrArg (fun uri => (Option.or uri _).getD []) (h.uriOf?_eq hp)
  · rw [Tag.value?_eq, Tag.value?_eq]
    have hentries : ∀ scopes content leaf tags,
        (Tag.ofContent scopes content leaf tags).entries = entriesOf content :=
      fun scopes content leaf tags => congrArg Prod.snd (element_ofContent scopes content leaf tags)
    rw [hentries, hentries, h.valueIn?_eq hword]

/-- **A new state leaves the names and namespaces of all elements as they are.** -/
theorem Rewritten.forall₂_alike (h : Rewritten (Touches state) w w')
    (hfresh : ∀ selfClosing content, Event.start selfClosing content ∈ w.events →
      ¬ state <:+: WrittenAttribute.elementName content)
    (hscopes : ∀ p, ¬ state <:+: p → Namespace.resolve p scopes' = Namespace.resolve p scopes) :
    List.Forall₂ Tag.Alike (w.tags scopes) (w'.tags scopes') := by
  induction h generalizing scopes scopes' with
  | nil => exact .nil
  | inert _ ih =>
    exact ih (fun selfClosing content hmem => hfresh selfClosing content
      (List.mem_cons_of_mem _ hmem)) hscopes
  | empty hcontent _ ih =>
    refine .cons (alike_ofContent hcontent (hfresh true _ List.mem_cons_self) hscopes .nil)
      (ih (fun selfClosing content hmem => hfresh selfClosing content
        (List.mem_cons_of_mem _ hmem)) hscopes)
  | node hcontent _ _ ihinside ih =>
    refine .cons (alike_ofContent hcontent (hfresh false _ List.mem_cons_self) hscopes
      (ihinside (fun selfClosing content hmem => hfresh selfClosing content ?_) ?_))
      (ih (fun selfClosing content hmem => hfresh selfClosing content ?_) hscopes)
    · simp [events, hmem]
    · intro p hp
      rw [Namespace.resolve_cons, Namespace.resolve_cons, hcontent.uriOf?_eq hp, hscopes p hp]
    · simp [events, hmem]

end Markup

/-! ## The list on the root -/

section

variable {root : Tag} {st : StartTag} {value : Option Text} {state : Text}

/-- The list of states on the root of a text as it is written. -/
def writtenStates (t : Text) : List Text :=
  StateList.written ((startTokens t).head?.bind fun root =>
    (root.pieces.find? (·.name = Word.states)).map (·.value))

theorem Tag.value?_of_entries (h : root.entries = st.pieces.map WrittenPiece.read) (name : Text) :
    root.head.value? name = (st.value? name).map valueRead := by
  rw [Tag.value?_eq, h, valueIn?, List.find?_map, StartTag.value?, Option.map_map, Option.map_map]
  rfl

/-- **The names on the root are those of its entries.** -/
theorem statesInAttribute_eq (hreadable : ∀ v ∈ value, Unescapable v)
    (h : root.head.value? Word.states = value.map valueRead) :
    root.statesInAttribute = (StateList.written value).flatMap StateList.namesIn := by
  rw [Tag.statesInAttribute, h]
  cases value with
  | none => rfl
  | some value =>
    obtain ⟨content, hcontent⟩ := hreadable value rfl
    rw [Option.map_some, valueRead_eq hcontent]
    by_cases hnil : value = []
    · subst hnil
      cases hcontent
      rfl
    · rw [StateList.names_written hcontent hnil]
      cases content with
      | nil => exact absurd ((unescape_eq_ok_iff.mp hcontent).eq_nil rfl).2 hnil
      | cons c cs => rfl

/-- **The list on the root gets the new state as its last entry.** -/
theorem statesInAttribute_declared (hstate : isStateName state = true)
    (hreadable : ∀ v ∈ value, Unescapable v) (hnew : ∀ v ∈ value, state ∉ StateList.entries v)
    (h : root.head.value? Word.states = some (valueRead (StartTag.declaredValue state value))) :
    root.statesInAttribute =
      ((StateList.written value).filter (trim · ≠ [])).flatMap StateList.namesIn ++ [state] := by
  have hname := StateList.namesIn_of_isStateName hstate
  have hplain : Unescapable state := unescapable_of_isStateName hstate
  cases value with
  | none =>
    have hone : ∀ v ∈ some state, Unescapable v := by
      rintro _ ⟨⟩
      exact hplain
    rw [statesInAttribute_eq hone h, StateList.written_some (ne_nil_of_isStateName hstate),
      partsAt_of_not_mem (isEntry_of_isStateName hstate).comma, List.flatMap_singleton, hname]
    rfl
  | some value =>
    have hvalue := hreadable value rfl
    have hcontains : (StateList.entries value).contains state = false := by
      rw [List.contains_eq_mem, decide_eq_false (hnew value rfl)]
    rw [StartTag.declaredValue, hcontains, if_neg (by decide)] at h
    have hentries : ∀ e ∈ StateList.entries value ++ [state], IsEntry e ∧ Unescapable e := by
      refine List.forall_mem_append.mpr ⟨fun e he => ?_, List.forall_mem_singleton.mpr
        ⟨isEntry_of_isStateName hstate, hplain⟩⟩
      exact ⟨(StateList.mem_entries he).1, hvalue.of_mem_entries he⟩
    have hne : StateList.render (StateList.entries value ++ [state]) ≠ [] := fun hnil => by
      have hread := StateList.entries_render fun e he => (hentries e he).1
      rw [hnil] at hread
      simp [StateList.entries, partsAt, trim_eq_nil_iff.mpr blanks_nil] at hread
    have hone : ∀ v ∈ some (StateList.render (StateList.entries value ++ [state])), Unescapable v := by
      rintro _ ⟨⟩
      exact unescapable_render fun e he => (hentries e he).2
    rw [statesInAttribute_eq hone h, StateList.written_some hne, StateList.render,
      partsAt_joinWith (fun e he => (hentries e he).1.comma) (by simp), List.flatMap_append,
      List.flatMap_singleton, hname, StateList.names_entries hvalue]

end

/-! ## A document -/

/-- **Creating a state declares it.** Declarations below the root come before the list
on the root, which gets the state and loses the entries that are blank. -/
theorem declared_of_createState {t state : Text} {root : Tag} {d : Dialect}
    {model : Option Text} (h : TidyText t root) (hdoctype : NoDoctype t)
    (hparse : parseStrict t = .ok root) (hstate : isStateName state = true)
    (hfresh : ¬ state <:+: t)
    (hsuits : (StateEdit.create root.declaredStates state model).Suits d t)
    (hlist : model = none → d.unscopedTags t ≠ [] →
      Quotable (StateList.render root.declaredStates)) :
    let created := createState d root.declaredStates state model t
    root.statesInAttribute = (writtenStates t).flatMap StateList.namesIn ∧
      created.complete = true ∧ ∃ root', parseStrict created.text = .ok root' ∧
        root'.statesInAttribute =
          ((writtenStates t).filter (trim · ≠ [])).flatMap StateList.namesIn ++ [state] ∧
        root'.declaredStates =
          if root.statesInChildren = [] then root'.statesInAttribute else root.declaredStates := by
  obtain ⟨w, rfl, hw, htags⟩ := h.exists_markup hdoctype hparse
  obtain ⟨selfClosing, content, hfirst⟩ := hw.single.exists_first
  obtain ⟨st, rfl, hst, hname⟩ := h.exists_sound hw rfl htags (Markup.mem_events_of_first hfirst)
  obtain ⟨token, hhead, htoken⟩ := hw.exists_head hfirst
  have htag : token.IsTag [] st selfClosing := hst.isTag hname htoken
  have hreceives := (hsuits.receives token hhead).startTag htag hst
  have hwritten : writtenStates w.source = StateList.written (st.value? Word.states) := by
    rw [writtenStates, hhead, Option.bind_some, htag.pieces_eq]
    rfl
  have hvalues : ∀ v ∈ st.value? Word.states, ∃ p ∈ st.pieces, p.value = v := fun v hv => by
    obtain ⟨l, p, r, hsplit, -, hvalue⟩ := StartTag.exists_split hv
    exact ⟨p, (StartTag.mem_of_split hsplit).1, hvalue⟩
  have hreadable : ∀ v ∈ st.value? Word.states, Unescapable v := fun v hv => by
    obtain ⟨p, hp, rfl⟩ := hvalues v hv
    exact (hst.piece hp).readable
  have hnew : ∀ v ∈ st.value? Word.states, state ∉ StateList.entries v := fun v hv => by
    obtain ⟨p, hp, rfl⟩ := hvalues v hv
    exact StartTag.not_mem_entries_of_fresh (Markup.fresh_of_mem_events hfresh
      (Markup.mem_events_of_first hfirst)) hp
  obtain ⟨w', st', hcreate, hrewritten, hfirst', hst', -, hvalue'⟩ :=
    hw.exists_created h htags hfirst hst hstate hreceives hsuits hlist
  obtain ⟨root', hparse', htags'⟩ := hw.exists_parseStrict_of_touches hrewritten
  have hread := Tag.value?_of_entries (Markup.entries_of_first hfirst htags hst).2 Word.states
  have hread' := Tag.value?_of_entries (Markup.entries_of_first hfirst' htags' hst').2 Word.states
  rw [hvalue', Option.map_some] at hread'
  -- The elements below the root declare what they declared.
  have hbelow : root'.statesInChildren = root.statesInChildren := by
    have halike : List.Forall₂ Tag.Alike (w.tags []) (w'.tags []) := by
      refine hrewritten.forall₂_alike (fun selfClosing content hmem hpart => ?_) fun _ _ => rfl
      exact Markup.fresh_of_mem_events hfresh hmem
        (hpart.trans (List.takeWhile_prefix _).isInfix)
    rw [htags, htags'] at halike
    cases halike with
    | cons hroot _ =>
      rw [← Tag.statesInChildren_bare root', hroot.statesInChildren_eq, Tag.statesInChildren_bare]
  intro created
  have hcreated : created = ⟨w'.source, true⟩ := hcreate
  rw [hcreated, hwritten]
  refine ⟨statesInAttribute_eq hreadable hread, rfl, root', hparse',
    statesInAttribute_declared hstate hreadable hnew hread', ?_⟩
  rw [Tag.declaredStates, Tag.declaredStates, hbelow]
  cases root.statesInChildren with
  | nil => rfl
  | cons first others => rfl

/-- A list with a blank entry and one that spells two names, attributes of a copied state
that declare a prefix, and an element that gets no attribute, though its name ends in a
blank. -/
theorem declared_of_createState_held :
    let t := "<e:Skin states=\"up,, down&#44;gone\" xmlns:e='w' xmlns:e.up='v' title='the states'>
      <e:states/><Rect includeIn=\"up\" width.up=\"2\"/><Label/><b\u1680/></e:Skin>".toList
    let up := ['u', 'p']
    let down := ['d', 'o', 'w', 'n']
    let gone := ['g', 'o', 'n', 'e']
    let held := ['h', 'e', 'l', 'd']
    ∃ root, (TidyText t root ∧ NoDoctype t ∧ parseStrict t = .ok root ∧ isStateName held = true ∧
        ¬ held <:+: t ∧ root.statesInChildren = [] ∧ root.declaredStates = [up, [], down, gone] ∧
        ((writtenStates t).filter (trim · ≠ [])).flatMap StateList.namesIn = [up, down, gone]) ∧
      ∀ model ∈ [none, some [], some up],
        let created := createState Dialect.standard root.declaredStates held model t
        ((StateEdit.create root.declaredStates held model).Suits Dialect.standard t ∧
          Quotable (StateList.render root.declaredStates)) ∧
        root.statesInAttribute = (writtenStates t).flatMap StateList.namesIn ∧
        created.complete = true ∧ ∃ root', parseStrict created.text = .ok root' ∧
          root'.statesInAttribute =
            ((writtenStates t).filter (trim · ≠ [])).flatMap StateList.namesIn ++ [held] ∧
          root'.declaredStates =
            if root.statesInChildren = [] then root'.statesInAttribute else root.declaredStates := by
  intro t up down gone held
  have hheld : isStateName held = true := by decide
  have hany : ((parseStrict t).toOption.any fun root => decide (TidyText t root) &&
      decide (NoDoctype t) && decide (¬ held <:+: t) && decide (root.statesInChildren = []) &&
      decide (root.declaredStates = [up, [], down, gone]) &&
      decide (∀ model ∈ [none, some [], some up],
        (StateEdit.create root.declaredStates held model).Suits Dialect.standard t)) = true := by
    decide +kernel
  obtain ⟨root, hparse, hproperties⟩ := exists_of_any_toOption hany
  simp only [Bool.and_eq_true, decide_eq_true_eq] at hproperties
  obtain ⟨⟨⟨⟨⟨htidy, hdoctype⟩, hfresh⟩, hchildren⟩, hstates⟩, hsuits⟩ := hproperties
  have hquotable : Quotable (StateList.render root.declaredStates) := by
    rw [hstates]
    exact ⟨by decide, unescapable_of_not_mem (by decide)⟩
  refine ⟨root, ⟨htidy, hdoctype, hparse, hheld, hfresh, hchildren, hstates, by decide +kernel⟩,
    fun model hmodel => ⟨⟨hsuits model hmodel, hquotable⟩, ?_⟩⟩
  exact declared_of_createState htidy hdoctype hparse hheld hfresh (hsuits model hmodel)
    fun _ _ => hquotable

/-- Declarations below the root stay as they are, and blank entries go from the list on the
root. The other edits do not suit their document, or give a component a list that cannot be
read: the scan does not reach the root, the blank that ends a name comes behind a new
attribute, a list is not found, or a name has a sign that cannot be written there. -/
theorem not_declared_of_createState :
    let q := ['q']
    ∀ t ∈ ["<Skin><states><State name=\"a\"/></states></Skin>".toList,
        "<Skin states=\"a,,b\"/>".toList,
        "<!doctype x <<a></b>>><r/>".toList,
        "<r\u1680/>".toList,
        "<r states = \"a=b\"/>".toList,
        "<r states=\"a\"><R includeIn = \"a=b\"/></r>".toList,
        "<r states=\"a\"><R\u1680/></r>".toList,
        "<r states=\"a&amp;b\"><R/></r>".toList,
        "<r><states><State name='a\"b'/></states><R/></r>".toList],
      ∃ root, (TidyText t root ∧ containsWord "<!DOCTYPE".toList t = false ∧
          parseStrict t = .ok root ∧ isStateName q = true ∧ ¬ q <:+: t) ∧
        ∀ root', parseStrict
            (createState Dialect.standard root.declaredStates q none t).text = .ok root' →
          root'.declaredStates ≠ root.declaredStates ++ [q] := by
  intro q
  let check (t : Text) : Bool :=
    !containsWord "<!DOCTYPE".toList t && decide (¬ q <:+: t) &&
      (parseStrict t).toOption.any fun root => decide (TidyText t root) &&
        (parseStrict (createState Dialect.standard root.declaredStates q none
          t).text).toOption.all fun root' =>
            decide (root'.declaredStates ≠ root.declaredStates ++ [q])
  have hcheck : ∀ t, check t = true → ∃ root, (TidyText t root ∧
      containsWord "<!DOCTYPE".toList t = false ∧ parseStrict t = .ok root ∧
        isStateName q = true ∧ ¬ q <:+: t) ∧ ∀ root', parseStrict
          (createState Dialect.standard root.declaredStates q none t).text = .ok root' →
        root'.declaredStates ≠ root.declaredStates ++ [q] := by
    intro t ht
    simp only [check, Bool.and_eq_true, Bool.not_eq_true', decide_eq_true_eq] at ht
    obtain ⟨⟨hdoctype, hfresh⟩, hany⟩ := ht
    obtain ⟨root, hparse, hroot⟩ := exists_of_any_toOption hany
    obtain ⟨htidy, hcreated⟩ := Bool.and_eq_true_iff.mp hroot
    refine ⟨root, ⟨of_decide_eq_true htidy, hdoctype, hparse, by decide, hfresh⟩, fun root' hparse' => ?_⟩
    rw [hparse'] at hcreated
    exact of_decide_eq_true hcreated
  intro t ht
  exact hcheck t (List.all_eq_true.mp (by decide +kernel) t ht)

end SkinMarkup
