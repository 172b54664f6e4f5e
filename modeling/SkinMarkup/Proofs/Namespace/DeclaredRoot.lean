import SkinMarkup.Proofs.Markup.Sound
import SkinMarkup.Proofs.Namespace.Added
import SkinMarkup.Proofs.Namespace.Gained
import SkinMarkup.Proofs.Tag.RoundTrip

/-!
# A namespace that is declared on the root

A declaration goes behind the last one of the root, or else behind its last attribute, and
is read back from there (`addNamespace_source`). For the tree it is one more attribute of
the root, and the names of its prefix that had no namespace gain it
(`added_of_parseStrict`).

Not every document can have a new declaration. A name that ends in the one blank that
names can have is cut where the declaration goes next to it. And an attribute whose name
is `xmlns:` alone declares the empty prefix for the reader of the tree, but not for the
reader of the tag, so that a binding can be lost (`not_added_of_addNamespace`).
-/

namespace SkinMarkup

namespace Namespace

variable {nsPrefix name : Text}

theorem declaredBy_attributeName (nsPrefix : Text) :
    declaredBy (attributeName nsPrefix) = some nsPrefix := by
  by_cases h : nsPrefix = []
  · subst h
    rfl
  · rw [attributeName, if_neg h]
    exact (declaredBy_eq_some_iff h).mpr rfl

theorem eq_of_declaredBy (h : declaredBy name = some nsPrefix) :
    name = attributeName nsPrefix ∨ nsPrefix = [] ∧ name = marker := by
  by_cases hne : nsPrefix = []
  · subst hne
    rw [declaredBy] at h
    split at h
    · next hkeyword => exact Or.inl hkeyword
    · exact Or.inr ⟨rfl, (after?_eq_some h).trans (List.append_nil _)⟩
  · rw [attributeName, if_neg hne]
    exact Or.inl ((declaredBy_eq_some_iff hne).mp h)

/-- A namespace that a tag can declare as it is. -/
structure Declarable (n : Namespace) : Prop where
  prefixed : n.nsPrefix = [] ∨ isXmlName n.nsPrefix = true
  trimmed : trim n.uri = n.uri
  plain : ∀ c ∈ n.uri, c ≠ '"' ∧ c ≠ '\\' ∧ c ≠ '&'

instance (n : Namespace) : Decidable n.Declarable :=
  decidable_of_iff
    ((n.nsPrefix = [] ∨ isXmlName n.nsPrefix = true) ∧ trim n.uri = n.uri ∧
      n.uri.all (fun c => decide (c ≠ '"' ∧ c ≠ '\\' ∧ c ≠ '&')) = true)
    ⟨fun ⟨h₁, h₂, h₃⟩ => ⟨h₁, h₂, by simpa using h₃⟩, fun ⟨h₁, h₂, h₃⟩ => ⟨h₁, h₂, by simpa using h₃⟩⟩

end Namespace

/-- What an attribute with the name of a declaration declares. -/
theorem WrittenPiece.declaration?_of_name {p : WrittenPiece} {nsPrefix : Text}
    (h : p.name = Namespace.attributeName nsPrefix) :
    p.declaration? = some ⟨nsPrefix, trim p.value⟩ := by
  rw [declaration?, h, Namespace.attributeName]
  by_cases hne : nsPrefix = []
  · simp [hne]
  · have hkeyword : Namespace.marker ++ nsPrefix ≠ Namespace.keyword := by
      simp [Namespace.marker, Namespace.keyword]
    rw [if_neg hne, if_neg hkeyword, after?_append]
    simp [hne]

namespace Namespace

variable {n : Namespace}

theorem Declarable.declaration?_piece (h : n.Declarable) : n.piece.declaration? = some n := by
  rw [WrittenPiece.declaration?_of_name (p := n.piece) rfl]
  change some (⟨n.nsPrefix, trim n.uri⟩ : Namespace) = some n
  rw [h.trimmed]

theorem Declarable.nameChars (h : n.Declarable) : NameChars n.nsPrefix := by
  rcases h.prefixed with hnil | hname
  · rw [hnil]
    exact List.forall_mem_nil _
  · exact nameChars_of_isXmlName hname

theorem Declarable.sound_piece (h : n.Declarable) : n.piece.Sound :=
  WrittenPiece.sound_usual (attributeName_ne_nil _) (nameChars_attributeName h.nameChars)
    (fun hmem => (h.plain _ hmem).1 rfl) (fun hmem => (h.plain _ hmem).2.1 rfl)
    fun hmem => (h.plain _ hmem).2.2 rfl

theorem Declarable.read_piece (h : n.Declarable) :
    n.piece.read = (attributeName n.nsPrefix, n.uri) :=
  WrittenPiece.read_of_not_mem fun hmem => (h.plain _ hmem).2.2 rfl

end Namespace

/-! ## The start tag -/

namespace StartTag

variable {t : StartTag} {l r : List WrittenPiece} {token : Token} {n : Namespace}
  {selfClosing : Bool}

/-- The namespaces that a start tag declares, as they are written. -/
def namespaces (t : StartTag) : List Namespace :=
  t.pieces.filterMap WrittenPiece.declaration?

/-- **Where a declaration goes:** nothing behind it declares a namespace. -/
theorem Sound.exists_place (h : t.Sound) (hend : t.pieces = [] → t.Solid)
    (htoken : Markup.IsToken token (.ofStart selfClosing) (.start selfClosing t.content)) :
    ∃ l r, t.pieces = l ++ r ∧ (∀ q ∈ r, q.declaration? = none) ∧
      splitForDeclaration token = (t.upTo l, t.onFrom selfClosing r) := by
  have htext : token.text = t.text selfClosing := htoken.text.trans (source_start selfClosing t)
  rw [splitForDeclaration, htext, h.tidy.ofText_text]
  dsimp only
  cases hsplit : WrittenPiece.splitAfterDeclarations t.pieces with
  | some parts =>
    obtain ⟨l, r, hpieces, hbefore, hafter, hnone⟩ :=
      WrittenPiece.exists_of_splitAfterDeclarations hsplit
    refine ⟨l, r, hpieces, hnone, ?_⟩
    dsimp only
    rw [hbefore, hafter]
    rfl
  | none =>
    refine ⟨t.pieces, [], (List.append_nil _).symm, List.forall_mem_nil _, ?_⟩
    have htrim := h.tidy.regular.trimEnd_upTo (List.Subset.refl _) hend
    dsimp only
    rw [htoken.kind, insertionHead_text h.tidy.regular.blanks.blanks htrim,
      text_eq (List.append_nil _).symm, List.drop_left]

/-- A prefix that is not declared has no attribute yet. -/
theorem not_mem_names_of_namespaces (h : n.nsPrefix ∉ t.namespaces.map (·.nsPrefix)) :
    Namespace.attributeName n.nsPrefix ∉ t.pieces.map (·.name) := by
  intro hmem
  obtain ⟨p, hp, hname⟩ := List.mem_map.mp hmem
  exact h (List.mem_map.mpr ⟨_, List.mem_filterMap.mpr
    ⟨p, hp, WrittenPiece.declaration?_of_name hname⟩, rfl⟩)

/-- The reader of the tree finds no binding of the prefix either. -/
theorem Sound.uriOf?_declarationsOf (h : t.Sound) (hnew : n.nsPrefix ∉ t.namespaces.map (·.nsPrefix))
    (hmarker : n.nsPrefix = [] → Namespace.marker ∉ t.pieces.map (·.name)) :
    Namespace.uriOf? n.nsPrefix (declarationsOf t.content) = none := by
  rw [Namespace.uriOf?, Option.map_eq_none_iff, List.find?_eq_none]
  intro d hd heq
  rw [declarationsOf, Attribute.declarations, h.entriesOf_content, List.map_map,
    List.mem_filterMap] at hd
  obtain ⟨a, ha, hdeclares⟩ := hd
  obtain ⟨p, hp, rfl⟩ := List.mem_map.mp ha
  obtain ⟨nsPrefix, hdeclared, rfl⟩ := Option.map_eq_some_iff.mp hdeclares
  obtain rfl : nsPrefix = n.nsPrefix := of_decide_eq_true heq
  have hname : p.name ∈ t.pieces.map (·.name) := List.mem_map_of_mem hp
  rcases Namespace.eq_of_declaredBy hdeclared with hattribute | ⟨hnil, hmark⟩
  · exact not_mem_names_of_namespaces hnew (hattribute ▸ hname)
  · exact hmarker hnil (hmark ▸ hname)

/-- The start tag with one more declaration. -/
theorem namespaces_insert (hn : n.Declarable) (hsplit : t.pieces = l ++ r)
    (hnone : ∀ q ∈ r, q.declaration? = none) :
    namespaces { t with pieces := l ++ n.piece :: r } = t.namespaces ++ [n] := by
  have hr : r.filterMap WrittenPiece.declaration? = [] := List.filterMap_eq_nil_iff.mpr hnone
  rw [namespaces, namespaces, hsplit, List.filterMap_append, List.filterMap_append,
    List.filterMap_cons_some hn.declaration?_piece, hr, List.append_nil]

end StartTag

/-! ## Documents -/

namespace Markup

variable {w : Markup} {selfClosing : Bool} {st : StartTag} {n : Namespace}

/-- The root of a document, where its start tag is sound. -/
theorem Document.exists_declared (hw : w.Document) (hfirst : w.first? = some (selfClosing, st.content))
    (h : st.Sound) :
    ∃ split, splitAtRoot w.source = some split ∧
      IsToken split.root (.ofStart selfClosing) (.start selfClosing st.content) ∧
      (∀ content', (w.setFirst content').source =
        split.before ++ (Event.start selfClosing content').source ++ split.after) ∧
      (TagText.ofText split.root.text).declarations = st.namespaces := by
  obtain ⟨split, hsplit, htoken, hsource⟩ := splitAtRoot_source hw.lexed hw.scannable.opens hfirst
  refine ⟨split, hsplit, htoken, hsource, ?_⟩
  rw [htoken.text, StartTag.source_start, h.tidy.ofText_text]
  rfl

theorem Document.rootNamespaces_source (hw : w.Document)
    (hfirst : w.first? = some (selfClosing, st.content)) (h : st.Sound) :
    rootNamespaces w.source = st.namespaces := by
  obtain ⟨split, hsplit, -, -, hdeclared⟩ := hw.exists_declared hfirst h
  rw [rootNamespaces, hsplit]
  exact hdeclared

/-- A namespace that is there is not added. -/
theorem Document.addNamespace_of_mem (hw : w.Document)
    (hfirst : w.first? = some (selfClosing, st.content)) (h : st.Sound) (hn : n ∈ st.namespaces) :
    addNamespace n w.source = ⟨⟨w.source, true⟩, none⟩ := by
  obtain ⟨split, hsplit, -, -, hdeclared⟩ := hw.exists_declared hfirst h
  rw [addNamespace, hsplit]
  dsimp only
  rw [hdeclared, if_pos (by simpa using hn)]

/-- A prefix that has another namespace keeps it. -/
theorem Document.addNamespace_of_bound (hw : w.Document)
    (hfirst : w.first? = some (selfClosing, st.content)) (h : st.Sound) (hn : n ∉ st.namespaces)
    (hbound : n.nsPrefix ∈ st.namespaces.map (·.nsPrefix)) :
    addNamespace n w.source = ⟨⟨w.source, false⟩, none⟩ := by
  obtain ⟨split, hsplit, -, -, hdeclared⟩ := hw.exists_declared hfirst h
  rw [addNamespace, hsplit]
  dsimp only
  rw [hdeclared, if_neg (by simpa using hn), if_pos (by simpa using hbound)]

/-- **A new namespace is declared in the start tag of the root.** -/
theorem Document.addNamespace_source (hw : w.Document)
    (hfirst : w.first? = some (selfClosing, st.content)) (h : st.Sound)
    (hend : st.pieces = [] → st.Solid) (hnew : n.nsPrefix ∉ st.namespaces.map (·.nsPrefix)) :
    ∃ before after l r, w.source = before ++ after ∧ st.pieces = l ++ r ∧
      (∀ q ∈ r, q.declaration? = none) ∧
      (w.setFirst (StartTag.content { st with pieces := l ++ n.piece :: r })).source =
        before ++ n.render ++ after ∧
      addNamespace n w.source =
        ⟨⟨before ++ n.render ++ after, true⟩, some ⟨width before, n.render⟩⟩ := by
  obtain ⟨split, hsplit, htoken, hsource, hdeclared⟩ := hw.exists_declared hfirst h
  obtain ⟨l, r, hpieces, hnone, hplace⟩ := h.exists_place hend htoken
  refine ⟨split.before ++ st.upTo l, st.onFrom selfClosing r ++ split.after, l, r, ?_, hpieces,
    hnone, ?_, ?_⟩
  · rw [← setFirst_eq_self hfirst, hsource, StartTag.source_start, StartTag.text_eq hpieces]
    simp
  · rw [hsource, StartTag.source_start,
      StartTag.text_eq_of_mem (t := { st with pieces := l ++ n.piece :: r }) rfl, n.render_eq,
      List.flatMap_singleton]
    simp [StartTag.upTo, StartTag.onFrom]
  · have hmem : n ∉ st.namespaces := fun hn => hnew (List.mem_map_of_mem hn)
    rw [addNamespace, hsplit]
    dsimp only
    rw [hdeclared, if_neg (by simpa using hmem), if_neg (by simpa using hnew), hplace]
    simp [width_append]

end Markup

/-- Where the attributes of a tag stand does not matter. -/
theorem Tag.bind_mapAttributes_bare (root : Tag) (attributes : List Attribute)
    (scopes : List (List Namespace)) :
    (root.mapAttributes fun _ => attributes.map Attribute.bare).bind scopes =
      (root.mapAttributes fun _ => attributes).bind scopes := by
  have hbare : (attributes.map Attribute.bare).map Attribute.bare = attributes.map Attribute.bare := by
    rw [List.map_map]
    rfl
  rw [bind_eq, bind_eq]
  simp only [mapAttributes, TagHead.bare, TagHead.lookup, TagHead.declarations,
    Attribute.declarations_bare, hbare]

/-- A root that gets one more declaration gains the namespace. -/
theorem Tag.bind_declared {root : Tag} {n : Namespace} {l r : List Attribute}
    (hbound : root.bind [] = root.bare) (hsplit : root.head.attributes = l ++ r)
    (hnew : Namespace.uriOf? n.nsPrefix root.head.declarations = none) :
    (root.mapAttributes fun _ =>
        l ++ .unplaced (Namespace.attributeName n.nsPrefix) n.uri :: r).bind [] =
      ((root.gain n).mapAttributes fun _ =>
        l ++ .unplaced (Namespace.attributeName n.nsPrefix) n.uri :: r).bare := by
  have hold : root.head.declarations = Attribute.declarations l ++ Attribute.declarations r := by
    rw [TagHead.declarations, hsplit, Attribute.declarations, List.filterMap_append]
    rfl
  have hdeclares : Attribute.declarations
      (l ++ .unplaced (Namespace.attributeName n.nsPrefix) n.uri :: r) =
        Attribute.declarations l ++ n :: Attribute.declarations r := by
    have hone : Attribute.declaration?
        (.unplaced (Namespace.attributeName n.nsPrefix) n.uri) = some n := by
      rw [Attribute.declaration?, Attribute.unplaced, Namespace.declaredBy_attributeName]
      rfl
    rw [Attribute.declarations, List.filterMap_append, List.filterMap_cons_some hone]
    rfl
  have hresolve : ∀ p, Namespace.resolve p [Attribute.declarations l ++ n :: Attribute.declarations r] =
      if p = n.nsPrefix then some n.uri else Namespace.resolve p [root.head.declarations] := fun p => by
    rw [Namespace.resolve_cons, Namespace.resolve_cons, Namespace.uriOf?_insert (hold ▸ hnew), ← hold]
    split <;> rfl
  have hnone : Namespace.resolve n.nsPrefix [root.head.declarations] = none := by
    rw [Namespace.resolve_cons, hnew]
    rfl
  rw [bind_eq, bare_eq] at hbound
  injection hbound with hhead _ htags
  have huri : root.head.lookup [] = root.head.uri := congrArg TagHead.uri hhead
  have htagsNew := bindAll_of_new hnone hresolve root.tags
  rw [htags, gainAll_map_bare] at htagsNew
  rw [bind_eq, gain_of_undeclared hnew, bare_eq]
  simp only [mapAttributes, TagHead.bare, TagHead.lookup, TagHead.declarations, hdeclares, htagsNew]
  congr 2
  rw [← huri, TagHead.lookup]
  cases hprefix : prefixOf root.head.name with
  | none => simp
  | some p =>
    by_cases h : p = n.nsPrefix <;> simp [hresolve, h]

variable {t : Text} {root : Tag} {n : Namespace}

/-- **The tree of a document with one more declaration gains the namespace.** -/
theorem Markup.Document.exists_gained {w : Markup} {selfClosing : Bool} {st : StartTag}
    {l r : List WrittenPiece} (hw : w.Document) (hfirst : w.first? = some (selfClosing, st.content))
    (htags : w.tags [] = [root.bare]) (hbound : root.bind [] = root.bare) (h : st.Sound)
    (hn : n.Declarable) (hpieces : st.pieces = l ++ r)
    (hsound : StartTag.Sound { st with pieces := l ++ n.piece :: r })
    (hnew : Namespace.uriOf? n.nsPrefix (declarationsOf st.content) = none) :
    ∃ root' front back,
      parseStrict (w.setFirst (StartTag.content { st with pieces := l ++ n.piece :: r })).source =
        .ok root' ∧
      root.head.attributes = front ++ back ∧
      root'.bare = ((root.gain n).mapAttributes fun _ =>
        front ++ .unplaced (Namespace.attributeName n.nsPrefix) n.uri :: back).bare := by
  obtain ⟨root', hparse, hbare⟩ :=
    hw.exists_rebound htags hfirst (hsound.replaces h.tidy.regular rfl selfClosing)
  obtain ⟨-, hentries⟩ := entries_of_first hfirst htags h
  have hread : root.head.attributes.map Attribute.entry =
      l.map WrittenPiece.read ++ r.map WrittenPiece.read := by
    rw [← List.map_append, ← hpieces]
    exact hentries
  obtain ⟨front, back, hattributes, hfront, hback⟩ := List.map_eq_append_iff.mp hread
  have hwritten : entriesOf (StartTag.content { st with pieces := l ++ n.piece :: r }) =
      (front ++ .unplaced (Namespace.attributeName n.nsPrefix) n.uri :: back).map Attribute.entry := by
    rw [hsound.entriesOf_content, List.map_append, List.map_append, List.map_cons, List.map_cons,
      hn.read_piece, hfront, hback]
    rfl
  have hunbound : Namespace.uriOf? n.nsPrefix root.head.declarations = none := by
    rw [← hnew, TagHead.declarations, declarationsOf]
    congr 1
    refine Attribute.declarations_congr ?_
    rw [h.entriesOf_content, List.map_map]
    exact hentries.trans (List.map_id _).symm
  refine ⟨root', front, back, hparse, hattributes, ?_⟩
  rw [hbare, hwritten, ← Attribute.map_bare, Tag.bind_mapAttributes_bare,
    Tag.bind_declared hbound hattributes hunbound]

/-- **A namespace is declared once, and reaches what had none.** -/
theorem added_of_parseStrict (h : TidyText t root) (hdoctype : NoDoctype t)
    (hparse : parseStrict t = .ok root) (hn : n.Declarable) :
    (n ∈ rootNamespaces t → addNamespace n t = ⟨⟨t, true⟩, none⟩) ∧
    (n ∉ rootNamespaces t → n.nsPrefix ∈ (rootNamespaces t).map (·.nsPrefix) →
      addNamespace n t = ⟨⟨t, false⟩, none⟩) ∧
    (n.nsPrefix ∉ (rootNamespaces t).map (·.nsPrefix) →
      (root.head.attributes = [] → root.name.getLast? ≠ some '\u1680') →
      ∃ before after, t = before ++ after ∧
        addNamespace n t =
          ⟨⟨before ++ n.render ++ after, true⟩, some ⟨width before, n.render⟩⟩ ∧
        rootNamespaces (before ++ n.render ++ after) = rootNamespaces t ++ [n] ∧
        addNamespace n (before ++ n.render ++ after) =
          ⟨⟨before ++ n.render ++ after, true⟩, none⟩ ∧
        ((n.nsPrefix = [] → ∀ a ∈ root.head.attributes, a.name ≠ Namespace.marker) →
          ∃ root' front back, parseStrict (before ++ n.render ++ after) = .ok root' ∧
            root.head.attributes = front ++ back ∧
            root'.bare = ((root.gain n).mapAttributes fun _ =>
              front ++ .unplaced (Namespace.attributeName n.nsPrefix) n.uri :: back).bare)) := by
  have hbound := bind_of_parseStrict h.unmarked hparse
  obtain ⟨w, rfl, hw, htags⟩ := h.exists_markup hdoctype hparse
  obtain ⟨selfClosing, content, hfirst⟩ := hw.single.exists_first
  obtain ⟨st, rfl, hst, -⟩ := h.exists_sound hw rfl htags (Markup.mem_events_of_first hfirst)
  obtain ⟨hname, hentries⟩ := Markup.entries_of_first hfirst htags hst
  have hnames : root.head.attributes.map (·.name) = st.pieces.map (·.name) := by
    have hfst := congrArg (List.map Prod.fst) hentries
    rwa [Tag.entries, List.map_map, List.map_map] at hfst
  rw [hw.rootNamespaces_source hfirst hst]
  refine ⟨hw.addNamespace_of_mem hfirst hst, hw.addNamespace_of_bound hfirst hst,
    fun hnew hsolid => ?_⟩
  have hend : st.pieces = [] → st.Solid := fun hnil =>
    hst.tidy.solid (hname ▸ hsolid (List.map_eq_nil_iff.mp (by rw [hnames, hnil]; rfl)))
  obtain ⟨before, after, l, r, hsplit, hpieces, hnone, hsource, hadd⟩ :=
    hw.addNamespace_source hfirst hst hend hnew
  -- The document with the declaration.
  have hsound := hst.insert hpieces hn.sound_piece (StartTag.not_mem_names_of_namespaces hnew)
  have hw' := hw.setFirst hfirst (hsound.replaces hst.tidy.regular rfl selfClosing)
  have hfirst' := Markup.first?_setFirst hfirst
    (StartTag.content { st with pieces := l ++ n.piece :: r })
  have hnamespaces := StartTag.namespaces_insert hn hpieces hnone
  refine ⟨before, after, hsplit, hadd, ?_⟩
  rw [← hsource]
  refine ⟨?_, hw'.addNamespace_of_mem hfirst' hsound (by rw [hnamespaces]; simp), fun hmarker => ?_⟩
  · rw [hw'.rootNamespaces_source hfirst' hsound, hnamespaces]
  · refine hw.exists_gained hfirst htags hbound hst hn hpieces hsound
      (hst.uriOf?_declarationsOf hnew fun hnil hmem => ?_)
    rw [← hnames] at hmem
    obtain ⟨a, ha, heq⟩ := List.mem_map.mp hmem
    exact hmarker hnil a ha heq

/-- A root that declares a prefix: the namespace is there, or the prefix has another one, or
a new prefix goes behind it. A tag below keeps the namespace that it declares itself. -/
theorem added_of_declaredPrefix :
    let t := "<?go?><r a='1' xmlns:q='v' b='2'><p:c xmlns:p='w'><p:d/></p:c><p:d/></r>".toList
    let r := "<?go?><r a='1' xmlns:q='v' xmlns:p=\"u\" b='2'><p:c xmlns:p='w'><p:d/></p:c><p:d/></r>".toList
    let there : Namespace := ⟨['q'], ['v']⟩
    let other : Namespace := ⟨['q'], ['x']⟩
    let new : Namespace := ⟨['p'], ['u']⟩
    ∃ root, (TidyText t root ∧ NoDoctype t ∧ parseStrict t = .ok root ∧
        there.Declarable ∧ other.Declarable ∧ new.Declarable) ∧
      (there ∈ rootNamespaces t ∧ addNamespace there t = ⟨⟨t, true⟩, none⟩) ∧
      (other ∉ rootNamespaces t ∧ other.nsPrefix ∈ (rootNamespaces t).map (·.nsPrefix) ∧
        addNamespace other t = ⟨⟨t, false⟩, none⟩) ∧
      (new.nsPrefix ∉ (rootNamespaces t).map (·.nsPrefix) ∧
        (root.head.attributes = [] → root.name.getLast? ≠ some '\u1680') ∧
        addNamespace new t = ⟨⟨r, true⟩, some ⟨26, new.render⟩⟩ ∧
        rootNamespaces r = rootNamespaces t ++ [new] ∧ addNamespace new r = ⟨⟨r, true⟩, none⟩ ∧
        (new.nsPrefix = [] → ∀ a ∈ root.head.attributes, a.name ≠ Namespace.marker) ∧
        ∃ root' front back, parseStrict r = .ok root' ∧ root.head.attributes = front ++ back ∧
          root'.bare = ((root.gain new).mapAttributes fun _ =>
            front ++ .unplaced (Namespace.attributeName new.nsPrefix) new.uri :: back).bare) := by
  intro t r there other new
  have hany : ((parseStrict t).toOption.any fun root => decide (TidyText t root) &&
      decide (NoDoctype t) && decide (root.head.attributes ≠ [])) = true := by
    decide +kernel
  obtain ⟨root, hparse, hproperties⟩ := exists_of_any_toOption hany
  simp only [Bool.and_eq_true, decide_eq_true_eq] at hproperties
  obtain ⟨⟨htidy, hdoctype⟩, hattributes⟩ := hproperties
  have hsolid : root.head.attributes = [] → root.name.getLast? ≠ some '\u1680' :=
    fun hnil => absurd hnil hattributes
  have hmarker : new.nsPrefix = [] → ∀ a ∈ root.head.attributes, a.name ≠ Namespace.marker := nofun
  have hthere : there ∈ rootNamespaces t := by decide +kernel
  have hother : other ∉ rootNamespaces t := by decide +kernel
  have hbound : other.nsPrefix ∈ (rootNamespaces t).map (·.nsPrefix) := by decide +kernel
  have hnew : new.nsPrefix ∉ (rootNamespaces t).map (·.nsPrefix) := by decide +kernel
  have hplain : there.Declarable ∧ other.Declarable ∧ new.Declarable := by decide +kernel
  obtain ⟨hthereDeclarable, hotherDeclarable, hnewDeclarable⟩ := hplain
  obtain ⟨before, after, -, hadd, hnamespaces, hagain, htree⟩ :=
    (added_of_parseStrict htidy hdoctype hparse hnewDeclarable).2.2 hnew hsolid
  have hr : (addNamespace new t).outcome.text = r := by decide +kernel
  have hoffset : (addNamespace new t).added = some ⟨26, new.render⟩ := by decide +kernel
  rw [hadd] at hr hoffset
  dsimp only at hr hoffset
  rw [hr, hoffset] at hadd
  rw [hr] at hnamespaces hagain htree
  exact ⟨root, ⟨htidy, hdoctype, hparse, hthereDeclarable, hotherDeclarable, hnewDeclarable⟩,
    ⟨hthere, (added_of_parseStrict htidy hdoctype hparse hthereDeclarable).1 hthere⟩,
    ⟨hother, hbound,
      (added_of_parseStrict htidy hdoctype hparse hotherDeclarable).2.1 hother hbound⟩,
    hnew, hsolid, hadd, hnamespaces, hagain, hmarker, htree hmarker⟩

/-- A document type declaration in lower case hides the root from the scan, a name that ends
in a blank is cut where the declaration is written next to it, and where an attribute
`xmlns:` binds the empty prefix, the name of the root changes its namespace. -/
theorem not_added_of_addNamespace :
    let t := "<!doctype x <<a></b>>><r/>".toList
    let blank := "<r\u1680/>".toList
    let empty := "<:x xmlns:a='1' xmlns:='v'/>".toList
    let n : Namespace := ⟨['p'], ['u']⟩
    let default : Namespace := ⟨[], ['u']⟩
    (containsWord "<!DOCTYPE".toList t = false ∧ (∃ root, parseStrict t = .ok root ∧ TidyText t root) ∧
      n.Declarable ∧ rootNamespaces t = [] ∧ (addNamespace n t).outcome.complete = false) ∧
    (NoDoctype blank ∧ (∃ root, parseStrict blank = .ok root ∧ TidyText blank root) ∧
      rootNamespaces blank = [] ∧
      (parseStrict (addNamespace n blank).outcome.text).toOption = none) ∧
    (NoDoctype empty ∧ default.Declarable ∧
      default.nsPrefix ∉ (rootNamespaces empty).map (·.nsPrefix) ∧
      (∃ root, parseStrict empty = .ok root ∧ TidyText empty root ∧ root.head.uri = ['v']) ∧
      ∃ root', parseStrict (addNamespace default empty).outcome.text = .ok root' ∧
        root'.head.uri = ['u']) := by
  intro t blank empty n default
  have hany : ((parseStrict t).toOption.any fun root => decide (TidyText t root)) = true := by
    decide +kernel
  obtain ⟨root, hparse, htidy⟩ := exists_of_any_toOption hany
  have hanyBlank : ((parseStrict blank).toOption.any fun root =>
      decide (TidyText blank root)) = true := by
    decide +kernel
  obtain ⟨rootBlank, hparseBlank, htidyBlank⟩ := exists_of_any_toOption hanyBlank
  have hanyEmpty : ((parseStrict empty).toOption.any fun root =>
      decide (TidyText empty root ∧ root.head.uri = ['v'])) = true := by
    decide +kernel
  obtain ⟨rootEmpty, hparseEmpty, hempty⟩ := exists_of_any_toOption hanyEmpty
  have hanyAdded : ((parseStrict (addNamespace default empty).outcome.text).toOption.any fun root =>
      decide (root.head.uri = ['u'])) = true := by
    decide +kernel
  obtain ⟨rootAdded, hparseAdded, hadded⟩ := exists_of_any_toOption hanyAdded
  exact ⟨⟨by decide +kernel, ⟨root, hparse, of_decide_eq_true htidy⟩, by decide +kernel,
      by decide +kernel, by decide +kernel⟩,
    ⟨by decide +kernel, ⟨rootBlank, hparseBlank, of_decide_eq_true htidyBlank⟩, by decide +kernel,
      by decide +kernel⟩,
    by decide +kernel, by decide +kernel, by decide +kernel,
    ⟨rootEmpty, hparseEmpty, of_decide_eq_true hempty⟩,
    rootAdded, hparseAdded, of_decide_eq_true hadded⟩

end SkinMarkup
