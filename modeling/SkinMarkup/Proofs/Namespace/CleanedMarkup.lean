import SkinMarkup.Proofs.Namespace.Cleaned
import SkinMarkup.Proofs.State.Declaring
import SkinMarkup.Proofs.State.Rewritten

/-!
# Documents without unused prefixes

Cleaning a document writes every start tag without the declarations that go:
`Document.exists_cleaned`. An element looks up the prefix of its own name only, and a
prefix that some element has stays declared where it was. So every name keeps its
namespace, however declarations shadow each other, and the tree is the old one without
the attributes that went (`Rewritten.tags_eq`).
-/

namespace SkinMarkup

/-! ## Trees without unused prefixes -/

namespace Tag

/-- The prefixes of the elements in a tree. -/
def prefixes (t : Tag) : List Text :=
  t.preorder.filterMap fun x => prefixOf x.name

mutual

/-- A tree without the declarations of prefixes that are not used. -/
def pruned (used : List Text) : Tag → Tag
  | ⟨head, leaf, tags⟩ =>
    ⟨{ head with attributes := head.attributes.filter fun a => !Namespace.isUnused used a.name },
      leaf, prunedAll used tags⟩

/-- Trees without the declarations of prefixes that are not used. -/
def prunedAll (used : List Text) : List Tag → List Tag
  | [] => []
  | t :: ts => pruned used t :: prunedAll used ts

end

variable {used : List Text} {p : Text}

theorem mem_prefixes {t : Tag} : p ∈ t.prefixes ↔ ∃ x ∈ t.preorder, prefixOf x.name = some p :=
  List.mem_filterMap

theorem prunedAll_eq_map (used : List Text) (ts : List Tag) :
    prunedAll used ts = ts.map (pruned used) := by
  induction ts with
  | nil => rw [prunedAll, List.map_nil]
  | cons t ts ih => rw [prunedAll, ih, List.map_cons]

theorem pruned_eq (used : List Text) (t : Tag) :
    t.pruned used =
      ⟨{ t.head with
          attributes := t.head.attributes.filter fun a => !Namespace.isUnused used a.name },
        t.leaf, t.tags.map (pruned used)⟩ := by
  cases t
  rw [pruned, prunedAll_eq_map]

/-- Which prefixes are used matters, not how they are listed. -/
theorem pruned_congr {used' : List Text} (h : ∀ p, p ∈ used ↔ p ∈ used') :
    pruned used = pruned used' := by
  have hall : ∀ ts : List Tag, ts.map (pruned used) = ts.map (pruned used') := by
    intro ts
    induction ts using trees_induction with
    | nil => rfl
    | cons tag ts ihtags ihts =>
      rw [List.map_cons, List.map_cons, pruned_eq, pruned_eq used', ihtags, ihts,
        Namespace.isUnused_congr h]
  funext t
  exact (List.cons.inj (hall [t])).1

/-- Places have no part in what goes. -/
theorem map_bare_map_pruned (used : List Text) (ts : List Tag) :
    (ts.map (pruned used)).map bare = (ts.map bare).map (pruned used) := by
  induction ts using trees_induction with
  | nil => rfl
  | cons tag ts ihtags ihts =>
    have hhead : (tag.pruned used).bare = tag.bare.pruned used := by
      rw [pruned_eq, pruned_eq, bare_eq, bare_head, bare_leaf, bare_tags, ihtags]
      simp only [TagHead.bare, List.filter_map]
      rfl
    rw [List.map_cons, List.map_cons, List.map_cons, List.map_cons, hhead, ihts]

theorem bare_pruned (used : List Text) (t : Tag) : (t.pruned used).bare = t.bare.pruned used :=
  (List.cons.inj (map_bare_map_pruned used [t])).1

end Tag

/-! ## What start tags say -/

/-- What a start tag says before and after unused declarations went. -/
structure Prunes (used : List Text) (content content' : Text) : Prop where
  name : WrittenAttribute.elementName content' = WrittenAttribute.elementName content
  entries : entriesOf content' =
    (entriesOf content).filter fun e => !Namespace.isUnused used e.1

section

variable {used : List Text} {content content' p : Text} {scopes scopes' : List (List Namespace)}

/-- A used prefix is declared as before. -/
theorem Prunes.uriOf?_eq (h : Prunes used content content') (hp : p ∈ used) :
    Namespace.uriOf? p (declarationsOf content') = Namespace.uriOf? p (declarationsOf content) := by
  have hkept : (entriesOf content').filter (fun e => !Namespace.isUnused used e.1) =
      (entriesOf content).filter fun e => !Namespace.isUnused used e.1 := by
    rw [h.entries, List.filter_filter]
    simp only [Bool.and_self]
  simp only [Namespace.uriOf?, declarationsOf, Attribute.declarations, List.filterMap_map,
    List.find?_filterMap]
  rw [find?_of_filter hkept]
  intro e he
  rw [Option.any_eq_true] at he
  obtain ⟨binding, hbinding, hsame⟩ := he
  obtain ⟨q, hq, rfl⟩ := Option.map_eq_some_iff.mp hbinding
  obtain rfl : q = p := of_decide_eq_true hsame
  have hdeclared : Namespace.declaredBy e.1 = some q := hq
  rw [Namespace.isUnused_of_declaredBy hdeclared (Or.inr hp)]
  rfl

/-- **An element whose prefix is used keeps its namespace.** -/
theorem Prunes.ofContent_eq (h : Prunes used content content')
    (hused : ∀ p, prefixOf (WrittenAttribute.elementName content) = some p → p ∈ used)
    (hscopes : ∀ p ∈ used, Namespace.resolve p scopes' = Namespace.resolve p scopes)
    (leaf : Option Leaf) (tags : List Tag) :
    Tag.ofContent scopes' content' leaf (tags.map (Tag.pruned used)) =
      (Tag.ofContent scopes content leaf tags).pruned used := by
  have huri : ((prefixOf (WrittenAttribute.elementName content)).bind fun p =>
      Namespace.resolve p (declarationsOf content' :: scopes')) =
        (prefixOf (WrittenAttribute.elementName content)).bind fun p =>
          Namespace.resolve p (declarationsOf content :: scopes) := by
    cases hprefixed : prefixOf (WrittenAttribute.elementName content) with
    | none => rfl
    | some p =>
      have hp := hused p hprefixed
      rw [Option.bind_some, Option.bind_some, Namespace.resolve_cons, Namespace.resolve_cons,
        h.uriOf?_eq hp, hscopes p hp]
  have hattributes : (entriesOf content').map Attribute.ofEntry =
      ((entriesOf content).map Attribute.ofEntry).filter fun a =>
        !Namespace.isUnused used a.name := by
    rw [h.entries, List.filter_map]
    rfl
  rw [Tag.pruned_eq, Tag.ofContent, Tag.ofContent]
  dsimp only
  rw [h.name]
  unfold declarationsOf at huri
  rw [huri, hattributes]

end

namespace Markup

variable {used : List Text} {w w' : Markup} {scopes scopes' : List (List Namespace)}

/-- **Markup without unused declarations has the tree without them.** -/
theorem Rewritten.tags_eq (h : Rewritten (fun _ => Prunes used) w w')
    (hused : ∀ selfClosing content, Event.start selfClosing content ∈ w.events →
      ∀ p, prefixOf (WrittenAttribute.elementName content) = some p → p ∈ used)
    (hscopes : ∀ p ∈ used, Namespace.resolve p scopes' = Namespace.resolve p scopes) :
    w'.tags scopes' = (w.tags scopes).map (Tag.pruned used) := by
  induction h generalizing scopes scopes' with
  | nil => rfl
  | inert _ ih =>
    exact ih (fun selfClosing content hmem => hused selfClosing content
      (List.mem_cons_of_mem _ hmem)) hscopes
  | empty hcontent _ ih =>
    have hrest := ih (fun selfClosing content hmem => hused selfClosing content
      (List.mem_cons_of_mem _ hmem)) hscopes
    rw [tags, tags, List.map_cons, hrest]
    congr 1
    exact hcontent.ofContent_eq (hused true _ List.mem_cons_self) hscopes none []
  | @node content content' close inside inside' rest rest' hcontent hinside _ ihinside ih =>
    have hinner : inside'.tags (declarationsOf content' :: scopes') =
        (inside.tags (declarationsOf content :: scopes)).map (Tag.pruned used) := by
      refine ihinside (fun selfClosing content hmem => hused selfClosing content
        (events_inside_node hmem)) fun p hp => ?_
      rw [Namespace.resolve_cons, Namespace.resolve_cons, hcontent.uriOf?_eq hp, hscopes p hp]
    have hrest := ih (fun selfClosing content hmem => hused selfClosing content
      (events_behind_node hmem)) hscopes
    rw [tags, tags, List.map_cons, hrest, hinner, hinside.leaf?_eq]
    congr 1
    exact hcontent.ofContent_eq (hused false _ List.mem_cons_self) hscopes _ _

end Markup

/-! ## Start tags -/

namespace StartTag

variable {t : StartTag} {used : List Text}

theorem drop_eq_some {names : Text → Bool} {name value value' : Text}
    (h : ValueEdit.drop names name value = some value') : value' = value := by
  rw [ValueEdit.drop] at h
  split at h
  · cases h
  · exact (Option.some.inj h).symm

theorem Tidy.pruned (h : t.Tidy) (used : List Text) : (t.pruned used).Tidy :=
  h.rewrite fun _ _ _ hvalue => Or.inl (drop_eq_some hvalue)

/-- What is read from a tag without unused declarations. -/
theorem Tidy.entriesOf?_pruned (h : t.Tidy) {entries : List (Text × Text)}
    (hentries : entriesOf? t.content = some entries) (used : List Text) :
    entriesOf? (t.pruned used).content =
      some (entries.filter fun e => !Namespace.isUnused used e.1) := by
  have hreads : ∀ p ∈ t.pieces,
      (ValueEdit.drop (Namespace.isUnused used)).Reads p.name p.value := by
    intro p _
    cases hunused : Namespace.isUnused used p.name with
    | true => exact ValueEdit.reads_of_none fun value => by simp [ValueEdit.drop, hunused]
    | false => exact ValueEdit.reads_of_eq fun value => by simp [ValueEdit.drop, hunused]
  have hfilter : entries.filterMap (ValueEdit.drop (Namespace.isUnused used)).entry =
      entries.filter fun e => !Namespace.isUnused used e.1 := by
    rw [← List.filterMap_eq_filter]
    refine List.filterMap_congr fun e _ => ?_
    cases hunused : Namespace.isUnused used e.1 <;>
      simp [ValueEdit.entry, ValueEdit.drop, hunused, Option.guard]
  rw [← hfilter]
  exact h.regular.entriesOf?_rewrite (h.pruned used).regular hentries hreads

theorem Tidy.prunes (h : t.Tidy) (hread : (entriesOf? t.content).isSome = true)
    (used : List Text) : Prunes used t.content (t.pruned used).content := by
  obtain ⟨entries, hentries⟩ := Option.isSome_iff_exists.mp hread
  constructor
  · rw [(h.pruned used).regular.elementName_content, h.regular.elementName_content]
    rfl
  · rw [entriesOf, h.entriesOf?_pruned hentries, entriesOf, hentries]
    rfl

/-- A start tag can be written without unused declarations. -/
theorem Tidy.replaces_pruned (h : t.Tidy) (hname : isXmlName t.name = true)
    (hback : '\\' ∉ t.content) (hread : (entriesOf? t.content).isSome = true) (used : List Text)
    (selfClosing : Bool) : Markup.Replaces selfClosing t.content (t.pruned used).content := by
  obtain ⟨entries, hentries⟩ := Option.isSome_iff_exists.mp hread
  refine ⟨⟨(h.pruned used).regular.whole_start (starts_of_isXmlName hname) selfClosing, ?_,
    (h.prunes hread used).name⟩, ?_⟩
  · rw [h.entriesOf?_pruned hentries]
    rfl
  · refine not_mem_content_rewrite hback fun p hp value hvalue hmem => ?_
    rw [drop_eq_some hvalue] at hmem
    exact hback (mem_content_of_mem_value hp hmem)

end StartTag

/-! ## Documents -/

namespace Markup

variable {w : Markup} {selfClosing : Bool} {content : Text}

/-- White space follows the name in an end tag. -/
theorem exists_append_of_endName (content : Text) :
    ∃ spaces, content = Event.endName content ++ spaces ∧ MarkupSpaces spaces := by
  rw [Event.endName]
  split
  · exact ⟨[], (List.append_nil content).symm, List.forall_mem_nil _⟩
  · refine ⟨_, (dropEndWhile_append_takeEndWhile isMarkupSpace content).symm, fun c hc => ?_⟩
    rw [takeEndWhile, List.mem_reverse] at hc
    exact List.mem_takeWhile_imp hc

/-- The name of an end tag that goes with a proper name. -/
theorem name_of_closing {token : Token} {name close : Text} (hname : NameChars name)
    (htoken : IsToken token .closing (.closing close)) (hend : name = Event.endName close) :
    token.name = name := by
  obtain ⟨spaces, hclose, hspaces⟩ := exists_append_of_endName close
  have hread : token.name = (name ++ (spaces ++ ['>'])).takeWhile fun c =>
      !(isSpace c || c == '/' || c == '>') := by
    rw [Token.name, htoken.kind, htoken.text, Event.source, hclose, ← hend]
    simp
  rw [hread]
  refine takeWhile_name hname fun c hc => ?_
  cases spaces with
  | nil =>
    cases hc
    rfl
  | cons d ds =>
    cases hc
    rw [isSpace_of_isMarkupSpace (hspaces _ List.mem_cons_self)]
    rfl

/-- Markup whose start tags are tidy. -/
def Tidied (w : Markup) : Prop :=
  ∀ selfClosing content, Event.start selfClosing content ∈ w.events →
    ∃ st : StartTag, st.content = content ∧ st.Tidy ∧ isXmlName st.name = true ∧ '\\' ∉ st.content

/-- An element token has the name of the start tag that it belongs to. -/
theorem Belongs.name_eq {token : Token} (h : w.Belongs token selfClosing content)
    (hw : w.Tidied) : token.name = WrittenAttribute.elementName content := by
  obtain ⟨st, rfl, htidy, hname, -⟩ := hw selfClosing content h.start
  rw [htidy.regular.elementName_content]
  rcases h.token with htoken | ⟨close, htoken, hclose⟩
  · exact htidy.name_of_isToken htoken
  · rw [htidy.regular.elementName_content] at hclose
    exact name_of_closing htidy.name htoken hclose

section

variable (hw : w.Document) (htidied : w.Tidied)

include hw htidied

/-- **The start tags of tidy markup are laid out.** -/
theorem Document.laidOut : LaidOut w.source := by
  intro s hs hstart
  obtain ⟨selfClosing, content, hbelongs⟩ := hw.exists_belongs (List.mem_map_of_mem hs)
    (Token.isElement_of_isStart hstart)
  obtain ⟨st, rfl, htidy, hname, hback⟩ := htidied selfClosing content hbelongs.start
  rcases hbelongs.token with htoken | ⟨close, htoken, -⟩
  · exact ⟨st, selfClosing, htidy.laid hback fun _ _ => List.forall_mem_nil _,
      ne_nil_of_isXmlName hname, htoken.kind, htoken.text.trans (StartTag.source_start selfClosing st)⟩
  · cases htoken.isStart_closing.symm.trans hstart

/-- **The prefixes of the element tokens are those of the start tags.** -/
theorem Document.mem_used {p : Text} :
    p ∈ Segment.used (scan w.source).segments ↔
      ∃ selfClosing content, Event.start selfClosing content ∈ w.events ∧
        prefixOf (WrittenAttribute.elementName content) = some p := by
  rw [Segment.used, mem_usedPrefixes]
  constructor
  · rintro ⟨token, hmem, helement, hprefixed⟩
    obtain ⟨selfClosing, content, hbelongs⟩ := hw.exists_belongs hmem helement
    refine ⟨selfClosing, content, hbelongs.start, ?_⟩
    rwa [← hbelongs.name_eq htidied]
  · rintro ⟨selfClosing, content, hmem, hprefixed⟩
    obtain ⟨token, htokenMem, htoken⟩ := hw.exists_token hmem
    have hbelongs : w.Belongs token selfClosing content := ⟨hmem, Or.inl htoken⟩
    rw [startTokens_eq] at htokenMem
    have hstart := List.mem_filter.mp htokenMem
    refine ⟨token, hstart.1, Token.isElement_of_isStart hstart.2, ?_⟩
    rwa [Token.nsPrefix?, hbelongs.name_eq htidied]

theorem Document.mem_used_iff_mem_prefixes {root : Tag} (htags : w.tags [] = [root.bare]) (p : Text) :
    p ∈ Segment.used (scan w.source).segments ↔ p ∈ root.prefixes := by
  rw [hw.mem_used htidied, Tag.mem_prefixes]
  constructor
  · rintro ⟨selfClosing, content, hmem, hprefixed⟩
    obtain ⟨x, hx, helement⟩ := exists_preorder htags hmem
    have hname : x.name = WrittenAttribute.elementName content := congrArg Prod.fst helement
    exact ⟨x, hx, hname ▸ hprefixed⟩
  · rintro ⟨x, hx, hprefixed⟩
    obtain ⟨selfClosing, content, hmem, helement⟩ := exists_start_of_mem_preorder htags hx
    have hname : x.name = WrittenAttribute.elementName content := congrArg Prod.fst helement
    exact ⟨selfClosing, content, hmem, hname ▸ hprefixed⟩

/-- **Cleaning a document cleans its start tags.** The outcome is a document. -/
theorem Document.exists_cleaned :
    ∃ w' : Markup, Rewritten (fun _ => Prunes (Segment.used (scan w.source).segments)) w w' ∧
      w'.Document ∧ cleanNamespaces w.source = ⟨w'.source, true⟩ := by
  rw [cleanNamespaces, used_scan]
  generalize Segment.used (scan w.source).segments = used
  let judge : Unit → Bool → Text → Unit × Verdict := fun _ _ content =>
    ((), .write ((StartTag.ofContent content).pruned used).content)
  have hfollows : Follows judge (fun (_ : Unit) token =>
      ((), if token.isStart then .replace (dropUnused used token.text) else .keep)) w := by
    constructor
    · intro memory token hstart
      rw [hstart]
      rfl
    · intro memory selfClosing content token hmem htoken
      obtain ⟨st, rfl, htidy, hname, hback⟩ := htidied selfClosing content hmem
      have hstart := isStart_of_isToken selfClosing htoken
      have hlaid : st.Laid [] := htidy.laid hback fun _ _ => List.forall_mem_nil _
      have htext := hlaid.dropUnused_text used selfClosing
      rw [← StartTag.source_start, ← StartTag.source_start, ← htoken.text] at htext
      rw [hstart, if_pos rfl, htext]
      simp only [judge, htidy.ofContent_content, Verdict.action]
  have hwrites : Writes (fun selfClosing content content' =>
      Prunes used content content' ∧ Replaces selfClosing content content') judge w := by
    intro memory selfClosing content hmem
    obtain ⟨st, rfl, htidy, hname, hback⟩ := htidied selfClosing content hmem
    have hread := hw.readable.isSome_of_mem hmem
    refine ⟨(), (st.pruned used).content, ?_, htidy.prunes hread used,
      htidy.replaces_pruned hname hback hread used selfClosing⟩
    simp only [judge, htidy.ofContent_content]
  obtain ⟨w', hrewritten, hclean⟩ := hw.exists_written hfollows hwrites ()
  exact ⟨w', hrewritten.imp fun _ _ _ h => h.1,
    hw.rewritten (hrewritten.imp fun _ _ _ h => h.2), hclean⟩

end

end Markup

theorem TidyText.tidied {t : Text} {root : Tag} {w : Markup} (h : TidyText t root)
    (hw : w.Document) (hsource : w.source = t) (htags : w.tags [] = [root.bare]) : w.Tidied := by
  intro selfClosing content hmem
  obtain ⟨st, hcontent, htidy, hname, hback, -⟩ := h.exists_tidy hw hsource htags hmem
  exact ⟨st, hcontent, htidy, hname, hback⟩

end SkinMarkup
