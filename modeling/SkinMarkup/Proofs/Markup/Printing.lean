import SkinMarkup.Proofs.Markup.Reading
import SkinMarkup.Proofs.TagText.StartTag
import SkinMarkup.Tag.Printer

/-!
# Reading what was written

A printable tree is written as markup that is read back as the same tree, with
its namespaces looked up anew: `parseStrict_render`. The blanks that the printer
adds leave no trace, since each element is read back wherever it is printed
(`exists_element`) and a leaf is trimmed of what stands around it.
-/

namespace SkinMarkup

/-! ## Namespaces looked up anew -/

/-- The URI of a tag, looked up in its own declarations and in `scopes`. -/
def TagHead.lookup (scopes : List (List Namespace)) (h : TagHead) : Text :=
  ((prefixOf h.name).bind fun p => Namespace.resolve p (h.declarations :: scopes)).getD []

namespace Tag

mutual

/-- A tree that stands nowhere, with its namespaces looked up where `scopes` are
in force. -/
def bind (scopes : List (List Namespace)) : Tag → Tag
  | ⟨head, leaf, tags⟩ =>
    ⟨{ head.bare with uri := head.lookup scopes }, leaf.map Leaf.bare,
      bindAll (head.declarations :: scopes) tags⟩

/-- Trees that stand nowhere, with their namespaces looked up. -/
def bindAll (scopes : List (List Namespace)) : List Tag → List Tag
  | [] => []
  | t :: ts => bind scopes t :: bindAll scopes ts

end

theorem bind_eq (scopes : List (List Namespace)) (t : Tag) :
    t.bind scopes = ⟨{ t.head.bare with uri := t.head.lookup scopes }, t.leaf.map Leaf.bare,
      bindAll (t.head.declarations :: scopes) t.tags⟩ := by
  cases t
  rw [bind]

theorem bindAll_eq_map (scopes : List (List Namespace)) (ts : List Tag) :
    bindAll scopes ts = ts.map (bind scopes) := by
  induction ts with
  | nil => rw [bindAll, List.map_nil]
  | cons t ts ih => rw [bindAll, List.map_cons, ih]

theorem bindAll_bare (ts : List Tag) (scopes : List (List Namespace)) :
    bindAll scopes (ts.map bare) = bindAll scopes ts := by
  induction ts using trees_induction generalizing scopes with
  | nil => rfl
  | cons tag ts ihtags ihts =>
    have hleaf : ∀ leaf : Option Leaf, (leaf.map Leaf.bare).map Leaf.bare = leaf.map Leaf.bare := by
      rintro (_ | leaf) <;> rfl
    have hhead : tag.head.bare.bare = tag.head.bare := by
      rw [TagHead.bare, TagHead.bare]
      simp [TagHead.unplaced, Attribute.bare, Attribute.unplaced, Function.comp_def]
    have hlookup : tag.head.bare.lookup scopes = tag.head.lookup scopes := by
      rw [TagHead.lookup, TagHead.lookup, TagHead.declarations_bare]
      rfl
    rw [List.map_cons, bindAll, bindAll, ihts, bind_eq, bind_eq, bare_head, bare_leaf, bare_tags,
      hhead, hlookup, hleaf, TagHead.declarations_bare, ihtags]

end Tag

namespace Markup

theorem bare_leafOf? (event : Event) : (leafOf? event).map Leaf.bare = leafOf? event := by
  cases event with
  | text raw =>
    rw [leafOf?]
    split
    · split <;> rfl
    · rfl
  | cdata content =>
    rw [leafOf?]
    split <;> rfl
  | _ => rfl

theorem bare_leaf? (w : Markup) : w.leaf?.map Leaf.bare = w.leaf? := by
  induction w with
  | inert event _ rest ih =>
    rw [leaf?]
    cases h : leafOf? event with
    | none => rw [Option.none_or, ih]
    | some leaf => rw [Option.some_or, ← h, bare_leafOf?]
  | _ => rfl

theorem bind_ofContent (scopes scopes' : List (List Namespace)) (content : Text)
    {leaf : Option Leaf} {tags tags' : List Tag} (hleaf : leaf.map Leaf.bare = leaf)
    (htags : Tag.bindAll (declarationsOf content :: scopes') tags = tags') :
    (Tag.ofContent scopes content leaf tags).bind scopes' =
      Tag.ofContent scopes' content leaf tags' := by
  have hattributes : ((entriesOf content).map Attribute.ofEntry).map Attribute.bare =
      (entriesOf content).map Attribute.ofEntry := by
    rw [List.map_map]
    rfl
  have htags' : Tag.bindAll ((Tag.ofContent scopes content leaf tags).head.declarations :: scopes')
      tags = tags' := htags
  rw [Tag.bind_eq]
  conv => lhs; arg 3; rw [show (Tag.ofContent scopes content leaf tags).tags = tags from rfl, htags']
  rw [show (Tag.ofContent scopes content leaf tags).leaf = leaf from rfl, hleaf]
  rw [TagHead.bare, show (Tag.ofContent scopes content leaf tags).head.attributes =
    (entriesOf content).map Attribute.ofEntry from rfl, hattributes]
  rfl

/-- **The tags in markup have their namespaces from where they stand.** -/
theorem bindAll_tags (w : Markup) (scopes scopes' : List (List Namespace)) :
    Tag.bindAll scopes' (w.tags scopes) = w.tags scopes' := by
  induction w generalizing scopes scopes' with
  | nil => rfl
  | inert event _ rest ih => exact ih scopes scopes'
  | empty content rest ih =>
    rw [tags, Tag.bindAll, ih, bind_ofContent scopes scopes' content rfl rfl]
    rfl
  | node content inside close rest ihinside ih =>
    rw [tags, Tag.bindAll, ih, bind_ofContent scopes scopes' content (bare_leaf? inside)
      (ihinside _ _)]
    rfl

end Markup

/-! ## Printable trees -/

/-- A start tag that can be written. -/
structure TagHead.Printable (h : TagHead) : Prop where
  name : isSafeName h.name = true
  starts : Event.Starts h.name
  attributes : ∀ a ∈ h.attributes, isSafeName a.name = true
  nodup : (h.attributes.map (·.name)).Nodup

/-- A leaf that can be written. -/
structure Leaf.Printable (leaf : Leaf) : Prop where
  content : leaf.content ≠ []
  trimmed : Trimmed leaf.content
  cdata : leaf.kind = .cdata → ¬ [']', ']', '>'] <:+: leaf.content

/-- A tag whose start tag and leaf can be written. -/
structure Tag.Printable (t : Tag) : Prop where
  head : t.head.Printable
  leaf : ∀ leaf ∈ t.leaf, leaf.Printable

/-! ## Start tags -/

/-- The start tag of a printed tag. -/
def TagHead.startTag (h : TagHead) (blanks : Text) : StartTag :=
  ⟨h.name, h.attributes.map fun a => WrittenPiece.usual a.name (escape a.value), blanks⟩

theorem TagHead.startTag_content (h : TagHead) (blanks : Text) :
    (h.startTag blanks).content =
      h.name ++ (h.attributes.flatMap Attribute.render ++ blanks) := by
  have hpiece : ∀ a : Attribute, (WrittenPiece.usual a.name (escape a.value)).source = a.render := by
    intro a
    simp [WrittenPiece.source, WrittenPiece.extent, WrittenPiece.quoted, WrittenPiece.usual,
      Attribute.render]
  rw [StartTag.content, startTag, List.flatMap_map]
  simp only [hpiece]

theorem TagHead.Printable.regular {h : TagHead} (hp : h.Printable) {blanks : Text}
    (hblanks : MarkupSpaces blanks) : (h.startTag blanks).Regular := by
  refine ⟨hp.name, ?_, ?_, ?_, hblanks⟩
  · intro p hmem
    obtain ⟨a, ha, rfl⟩ := List.mem_map.mp hmem
    exact WrittenPiece.regular_usual (hp.attributes a ha) fun hquote =>
      (plain_of_mem_escape hquote).2.2.2 rfl
  · rw [startTag, List.map_map]
    exact hp.nodup
  · intro p hmem
    obtain ⟨a, -, rfl⟩ := List.mem_map.mp (List.mem_of_mem_head? hmem)
    exact List.cons_ne_nil _ _

theorem TagHead.Printable.entriesOf? {h : TagHead} (hp : h.Printable) {blanks : Text}
    (hblanks : MarkupSpaces blanks) :
    SkinMarkup.entriesOf? (h.startTag blanks).content = some (h.attributes.map Attribute.entry) := by
  rw [(hp.regular hblanks).entriesOf?_content, startTag, List.map_map]
  generalize h.attributes = attributes
  induction attributes with
  | nil => rfl
  | cons a attributes ih =>
    refine mapM_readEntry_cons.mpr ⟨a.entry, _, ?_, ih, rfl⟩
    exact readEntry_eq_some.mpr ⟨rfl, unescape_escape a.value⟩

/-- A printed start tag is read back with its names and values. -/
theorem TagHead.Printable.ofContent_eq {h : TagHead} (hp : h.Printable) {blanks : Text}
    (hblanks : MarkupSpaces blanks) (scopes : List (List Namespace)) (leaf : Option Leaf)
    (tags : List Tag) :
    Tag.ofContent scopes (h.startTag blanks).content leaf tags =
        ⟨{ h.bare with uri := h.lookup scopes }, leaf, tags⟩ ∧
      declarationsOf (h.startTag blanks).content = h.declarations := by
  have hentries : entriesOf (h.startTag blanks).content = h.attributes.map Attribute.entry := by
    rw [entriesOf, hp.entriesOf? hblanks]
    rfl
  have hdeclared : Attribute.declarations ((h.attributes.map Attribute.entry).map
      Attribute.ofEntry) = h.declarations := by
    rw [← Attribute.map_bare, Attribute.declarations_bare]
    rfl
  refine ⟨?_, by rw [declarationsOf, hentries, hdeclared]⟩
  rw [Tag.ofContent, hentries, hdeclared, (hp.regular hblanks).elementName_content]
  simp only [TagHead.bare, TagHead.lookup, startTag, Attribute.map_bare]

/-! ## Elements -/

theorem blanks_tabs (depth : Nat) : Blanks (Tag.tabs depth) := by
  intro c hc
  rw [List.eq_of_mem_replicate hc]
  rfl

theorem blanks_newLine (depth : Nat) : Blanks ('\n' :: Tag.tabs depth) := by
  intro c hc
  rcases List.mem_cons.mp hc with rfl | hc
  · rfl
  · exact blanks_tabs depth c hc

theorem Blanks.not_mem {t : Text} (h : Blanks t) : '<' ∉ t := by
  intro hmem
  cases h '<' hmem

namespace Markup

/-- Markup that is cut into its own events and can be read. -/
structure Proper (w : Markup) : Prop where
  lexed : w.Lexed
  readable : w.Readable

/-- Blanks before markup leave no trace. -/
theorem exists_blanks {before : Text} (hbefore : Blanks before) {w : Markup} (hw : w.Proper)
    (hstart : w.startsText = false) :
    ∃ v : Markup, v.source = before ++ w.source ∧ v.Proper ∧ v.leaf? = w.leaf? ∧
      ∀ scopes, v.tags scopes = w.tags scopes := by
  cases before with
  | nil => exact ⟨w, rfl, hw, rfl, fun _ => rfl⟩
  | cons c cs =>
    have hread := hbefore.unescape_eq
    have hleaf : leafOf? (.text (c :: cs)) = none := by
      simp only [leafOf?, hread, if_pos (trim_eq_nil_iff.mpr hbefore)]
    refine ⟨inert (.text (c :: cs)) (Event.elementKind?_text _) w, rfl, ⟨⟨⟨List.cons_ne_nil _ _,
      hbefore.not_mem⟩, fun _ => hstart, hw.lexed⟩, ⟨_, hread⟩, hw.readable⟩, ?_, fun _ => rfl⟩
    rw [leaf?, hleaf, Option.none_or]

/-- A printed leaf between blanks is read back. -/
theorem exists_leaf {leaf : Leaf} (hleaf : leaf.Printable) {before after : Text}
    (hbefore : Blanks before) (hafter : Blanks after) {w : Markup} (hw : w.Proper)
    (hstart : w.startsText = false) :
    ∃ v : Markup, v.source = before ++ leaf.render ++ after ++ w.source ∧ v.Proper ∧
      v.leaf? = some leaf.bare ∧ ∀ scopes, v.tags scopes = w.tags scopes := by
  obtain ⟨kind, content, span⟩ := leaf
  cases kind with
  | text =>
    -- The blanks and the leaf are one run of text.
    let raw := before ++ escape content ++ after
    have hread : unescape raw = .ok (before ++ content ++ after) :=
      unescape_append (unescape_append hbefore.unescape_eq (unescape_escape content))
        hafter.unescape_eq
    have htrim : trim (before ++ content ++ after) = content :=
      trim_of_blanks_around hbefore hleaf.trimmed hafter
    have hcontent : content ≠ [] := hleaf.content
    have hne : raw ≠ [] := by
      simp [raw, escape_ne_nil hcontent]
    have hmem : '<' ∉ raw := by
      simp only [raw, List.mem_append, not_or]
      exact ⟨⟨hbefore.not_mem, fun h => (plain_of_mem_escape h).1 rfl⟩, hafter.not_mem⟩
    have hleafOf : leafOf? (.text raw) = some ⟨.text, content, ⟨0, 0⟩⟩ := by
      simp only [leafOf?, hread, htrim, if_neg hcontent]
    refine ⟨inert (.text raw) (Event.elementKind?_text _) w, rfl, ⟨⟨⟨hne, hmem⟩, fun _ => hstart,
      hw.lexed⟩, ⟨_, hread⟩, hw.readable⟩, ?_, fun _ => rfl⟩
    rw [leaf?, hleafOf]
    rfl
  | cdata =>
    obtain ⟨v, hsource, hv, -, htags⟩ := exists_blanks hafter hw hstart
    have hwhole : (Event.cdata content).Whole := by
      intro rest
      refine ⟨'!' :: (['[', 'C', 'D', 'A', 'T', 'A', '['] ++ (content ++ ([']', ']', '>'] ++ rest))),
        by simp [Event.source], ?_⟩
      rw [Event.next, if_pos rfl, Event.nextMarkup]
      show Event.nextCdata (['[', 'C', 'D', 'A', 'T', 'A', '['] ++
        (content ++ ([']', ']', '>'] ++ rest))) = _
      rw [Event.nextCdata, after?_append]
      dsimp only
      rw [cutAtWord_cdata (hleaf.cdata rfl)]
    have hproper : (inert (.cdata content) (Event.elementKind?_cdata _) v).Proper :=
      ⟨⟨hwhole, by rintro ⟨⟩, hv.lexed⟩, trivial, hv.readable⟩
    obtain ⟨u, hu, hproper', hleaf', htags'⟩ := exists_blanks hbefore hproper rfl
    refine ⟨u, ?_, hproper', ?_, fun scopes => (htags' scopes).trans (htags scopes)⟩
    · rw [hu, source_inert, hsource]
      simp [Leaf.render, Event.source]
    · rw [hleaf', leaf?, leafOf?, trim_of_trimmed hleaf.trimmed, if_neg hleaf.content]
      rfl

theorem whole_endTag {name : Text} (h : isSafeName name = true) : (Event.closing name).Whole :=
  Event.whole_closing (WrittenPiece.closed_of_isSafeName h)

theorem endName_of_isSafeName {name : Text} (h : isSafeName name = true) :
    Event.endName name = name := by
  obtain ⟨hne, hsafe⟩ := isSafeName_iff.mp h
  have hlast : dropEndWhile isMarkupSpace name = name := by
    refine (List.rdropWhile_eq_self_iff (p := isMarkupSpace)).mpr fun hne hlast => ?_
    rw [(isSafeChar_iff.mp (hsafe _ (List.getLast_mem hne))).1] at hlast
    cases hlast
  rw [Event.endName, hlast]
  exact if_neg hne

/-- Markup that starts with one element and goes on with `rest`. The element is
written as `text` and read back as `tag`, whatever its namespaces are looked up in. -/
structure Prints (w rest : Markup) (text : Text) (tag : List (List Namespace) → Tag) : Prop where
  source : w.source = text ++ rest.source
  proper : w.Proper
  startsText : w.startsText = false
  leaf? : w.leaf? = none
  single : rest.Outer → w.Single
  tags : ∀ scopes, w.tags scopes = tag scopes :: rest.tags scopes

/-- A printed start tag, what is inside and the end tag are read back. -/
theorem exists_node {head : TagHead} (hhead : head.Printable) {v rest : Markup} (hv : v.Proper)
    (hrest : rest.Proper) :
    ∃ w : Markup, w.Prints rest ('<' :: (head.name ++ head.attributes.flatMap Attribute.render) ++
        '>' :: v.source ++ Tag.renderEnd head.name)
      fun scopes => ⟨{ head.bare with uri := head.lookup scopes }, v.leaf?,
        v.tags (head.declarations :: scopes)⟩ := by
  have hblanks : MarkupSpaces [] := by rintro c ⟨⟩
  have hregular := hhead.regular hblanks
  have hentries : (entriesOf? (head.startTag []).content).isSome = true := by
    rw [hhead.entriesOf? hblanks]
    rfl
  have hname : WrittenAttribute.elementName (head.startTag []).content = Event.endName head.name := by
    rw [hregular.elementName_content, endName_of_isSafeName hhead.name]
    rfl
  refine ⟨node (head.startTag []).content v head.name rest, ?_,
    ⟨⟨hregular.whole_start hhead.starts false, hv.lexed, whole_endTag hhead.name, hrest.lexed⟩,
      hentries, hv.readable, hname, hrest.readable⟩, rfl, rfl, id, fun scopes => ?_⟩
  · simp [TagHead.startTag_content, Event.source, Tag.renderEnd]
  · obtain ⟨htag, hdeclared⟩ := hhead.ofContent_eq hblanks scopes v.leaf?
      (v.tags (head.declarations :: scopes))
    rw [Markup.tags, hdeclared, htag]

theorem exists_empty {head : TagHead} (hhead : head.Printable) {rest : Markup}
    (hrest : rest.Proper) :
    ∃ w : Markup, w.Prints rest ('<' :: (head.name ++ head.attributes.flatMap Attribute.render) ++
        [' ', '/', '>'])
      fun scopes => ⟨{ head.bare with uri := head.lookup scopes }, none, []⟩ := by
  have hblanks : MarkupSpaces [' '] := by
    intro c hc
    rw [List.mem_singleton.mp hc]
    rfl
  have hregular := hhead.regular hblanks
  have hentries : (entriesOf? (head.startTag [' ']).content).isSome = true := by
    rw [hhead.entriesOf? hblanks]
    rfl
  refine ⟨empty (head.startTag [' ']).content rest, ?_,
    ⟨⟨hregular.whole_start hhead.starts true, hrest.lexed⟩, hentries, hrest.readable⟩, rfl, rfl, id,
    fun scopes => ?_⟩
  · simp [TagHead.startTag_content, Event.source]
  · rw [Markup.tags, (hhead.ofContent_eq hblanks scopes none []).1]

/-- Markup that is read back as the children of an element, from the end of the
line before them to the blanks before the end tag. The blanks before the first
child are kept apart: a leaf may stand in front of them. -/
structure PrintsChildren (before : Text) (w : Markup) (depth : Nat) (tags : List Tag) : Prop where
  blanks : Blanks before
  source : before ++ w.source = '\n' :: (Tag.renderLines (depth + 1) tags ++ Tag.tabs depth)
  proper : w.Proper
  startsText : w.startsText = false
  leaf? : w.leaf? = none
  tags : ∀ scopes, w.tags scopes = Tag.bindAll scopes tags

/-- Markup that is read back as the leaf and the children of an element. -/
structure PrintsContent (w : Markup) (leaf : Option Leaf) (tags : List Tag) : Prop where
  proper : w.Proper
  leaf? : w.leaf? = leaf.map Leaf.bare
  tags : ∀ scopes, w.tags scopes = Tag.bindAll scopes tags

/-- What stands between the tags of an element is read back, if there is anything. -/
theorem exists_content {head : TagHead} {leaf : Option Leaf} {tags : List Tag} {depth : Nat}
    (hleaf : ∀ l ∈ leaf, l.Printable) (hsome : leaf ≠ none ∨ tags ≠ []) {before : Text} {u : Markup}
    (hchildren : PrintsChildren before u depth tags) :
    ∃ v : Markup, v.PrintsContent leaf tags ∧
      Tag.renderAt depth [] ⟨head, leaf, tags⟩ = Tag.tabs depth ++
        ('<' :: (head.name ++ head.attributes.flatMap Attribute.render) ++ '>' :: v.source ++
          Tag.renderEnd head.name) := by
  cases leaf with
  | none =>
    obtain ⟨t, ts, rfl⟩ := List.exists_cons_of_ne_nil (hsome.resolve_left fun h => h rfl)
    obtain ⟨v, hsource, hproper, hvleaf, htags⟩ :=
      exists_blanks hchildren.blanks hchildren.proper hchildren.startsText
    refine ⟨v, ⟨hproper, hvleaf.trans hchildren.leaf?,
      fun scopes => (htags scopes).trans (hchildren.tags scopes)⟩, ?_⟩
    rw [hsource, hchildren.source, Tag.renderAt]
    simp
  | some leaf =>
    have hprintable : leaf.Printable := hleaf leaf rfl
    cases tags with
    | nil =>
      have hempty : Markup.nil.Proper := ⟨trivial, trivial⟩
      obtain ⟨v, hsource, hproper, hvleaf, htags⟩ :=
        exists_leaf hprintable blanks_nil blanks_nil hempty rfl
      refine ⟨v, ⟨hproper, hvleaf, htags⟩, ?_⟩
      rw [hsource, Tag.renderAt]
      simp
    | cons t ts =>
      obtain ⟨v, hsource, hproper, hvleaf, htags⟩ := exists_leaf hprintable
        (blanks_newLine (depth + 1)) hchildren.blanks hchildren.proper hchildren.startsText
      refine ⟨v, ⟨hproper, hvleaf, fun scopes => (htags scopes).trans (hchildren.tags scopes)⟩, ?_⟩
      rw [hsource, List.append_assoc _ before u.source, hchildren.source, Tag.renderAt]
      simp

/-- **A printed element is read back,** given how its children are. -/
theorem exists_element {tag : Tag} (htag : tag.Printable) {depth : Nat} {before : Text} {u : Markup}
    (hchildren : PrintsChildren before u depth tag.tags) {rest : Markup} (hrest : rest.Proper) :
    ∃ (w : Markup) (text : Text), Tag.renderAt depth [] tag = Tag.tabs depth ++ text ∧
      w.Prints rest text fun scopes => tag.bind scopes := by
  obtain ⟨head, leaf, tags⟩ := tag
  obtain ⟨hhead, hleaf⟩ := htag
  by_cases hsome : leaf ≠ none ∨ tags ≠ []
  · obtain ⟨v, hv, hrender⟩ := exists_content hleaf hsome hchildren
    obtain ⟨w, hw⟩ := exists_node hhead hv.proper hrest
    refine ⟨w, _, hrender, { hw with tags := fun scopes => ?_ }⟩
    rw [hw.tags, hv.leaf?, hv.tags, Tag.bind]
  · obtain ⟨rfl, rfl⟩ : leaf = none ∧ tags = [] := by simpa using hsome
    obtain ⟨w, hw⟩ := exists_empty hhead hrest
    refine ⟨w, _, ?_, { hw with tags := fun scopes => ?_ }⟩
    · rw [Tag.renderAt]
      simp
    · rw [hw.tags, Tag.bind, Tag.bindAll]
      rfl

/-- **Printed children are read back.** The blanks around them are those of the
lines they take. -/
theorem exists_children (ts : List Tag) (hts : Tag.Everywhere Tag.Printable ts) (depth : Nat) :
    ∃ (before : Text) (w : Markup), PrintsChildren before w depth ts := by
  induction ts using Tag.trees_induction generalizing depth with
  | nil =>
    refine ⟨'\n' :: Tag.tabs depth, nil, blanks_newLine depth, ?_, ⟨trivial, trivial⟩, rfl, rfl,
      fun _ => rfl⟩
    rw [Tag.renderLines, source_nil, List.append_nil]
    rfl
  | cons tag ts ihtags ihts =>
    obtain ⟨⟨htag, hbelow⟩, hts⟩ := Tag.everywhere_cons.mp hts
    obtain ⟨before, u, hu⟩ := ihts hts depth
    obtain ⟨v, hsource, hproper, -, htags⟩ := exists_blanks hu.blanks hu.proper hu.startsText
    obtain ⟨inside, u', hinside⟩ := ihtags hbelow (depth + 1)
    obtain ⟨w, text, hrender, hw⟩ := exists_element htag hinside hproper
    refine ⟨'\n' :: Tag.tabs (depth + 1), w, blanks_newLine _, ?_, hw.proper, hw.startsText, hw.leaf?,
      fun scopes => ?_⟩
    · rw [hw.source, hsource, hu.source, Tag.renderLines, hrender]
      simp
    · rw [hw.tags, htags, hu.tags, Tag.bindAll]

end Markup

/-- **A printable tree is read back** with its namespaces looked up anew. -/
theorem parseStrict_render {root : Tag} (h : Tag.Everywhere Tag.Printable [root]) :
    ∃ root', parseStrict root.render = .ok root' ∧ root'.bare = root.bind [] := by
  obtain ⟨⟨hroot, hbelow⟩, -⟩ := Tag.everywhere_cons.mp h
  have hempty : Markup.nil.Proper := ⟨trivial, trivial⟩
  obtain ⟨before, u, hchildren⟩ := Markup.exists_children root.tags hbelow 0
  obtain ⟨w, text, hrender, hw⟩ := Markup.exists_element hroot hchildren hempty
  have hsource : w.source = root.render := by
    rw [hw.source, Markup.source_nil, List.append_nil]
    exact hrender.symm
  have hmark : w.source.head? ≠ some Source.mark := by
    intro hhead
    have hnil : ∀ d ∈ ([] : Text).head?, d = '<' := by rintro d ⟨⟩
    have hfirst := Markup.head?_of_not_startsText hw.proper.lexed hw.startsText hnil
    rw [List.append_nil] at hfirst
    cases hfirst _ hhead
  obtain ⟨root', hparse, htags'⟩ := exists_parseStrict_of_markup hmark hw.proper.lexed
    hw.proper.readable (hw.single trivial)
  refine ⟨root', by rw [← hsource, hparse], ?_⟩
  have heq := htags'.symm.trans (hw.tags [])
  exact (List.cons.inj heq).1

end SkinMarkup
