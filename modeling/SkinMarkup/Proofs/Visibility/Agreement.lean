import SkinMarkup.Proofs.Document.Fragment
import SkinMarkup.Proofs.Document.Outline
import SkinMarkup.Proofs.Text.Names
import SkinMarkup.Visibility

/-!
# Tags and their tokens are visible in the same states

The visibility of a tag is read off its attributes, that of a token by reading
its text once more, as an empty element without a prefix. The two differ in one
thing: a token with the working prefix is always visible, a tag is not
(`isVisible_startToken_eq`). So they agree on the tags of a document with proper
names, provided that tags with the working prefix say nothing about states
(`isVisible_startToken`).
-/

namespace SkinMarkup

namespace Tag

/-- A tag that says nothing about states. -/
def Unscoped (x : Tag) : Prop :=
  x.head.value? Word.includeIn = none ∧ x.head.value? Word.excludeFrom = none ∧ '.' ∉ x.localName

theorem Unscoped.visibleIn {x : Tag} (h : x.Unscoped) (d : Dialect) (state : Text) :
    (Membership.ofTag x).visibleIn d state = true := by
  obtain ⟨hinclude, hexclude, hdot⟩ := h
  have hcut : cutAt '.' x.localName = none := cutAt_eq_none_iff.mpr hdot
  simp [Membership.visibleIn, Membership.ofTag, hinclude, hexclude, hcut]

end Tag

theorem Event.source_start (selfClosing : Bool) (content : Text) :
    (Event.start selfClosing content).source =
      '<' :: content ++ if selfClosing then ['/', '>'] else ['>'] := by
  cases selfClosing <;> rfl

section

variable {t : Text} {x : Tag} {content : Text}

theorem startToken_text (hread : x.ReadFrom t) (hwritten : x.head.Written t content) :
    (x.startToken t).text = (Event.start x.head.selfClosing content).source := by
  have hsource := hwritten.source
  rw [Tag.startToken, Token.ofMark, Tag.startMark]
  cases hself : x.head.selfClosing with
  | true =>
    rw [hself, (hread.empty hself).2.1] at hsource
    simp [hsource]
  | false =>
    rw [hself] at hsource
    simp [hsource]

/-- What follows a name in a start tag is white space or the end of the tag. -/
theorem ends_of_head? {selfClosing : Bool} :
    ∀ c ∈ (content.dropWhile (!isMarkupSpace ·) ++ if selfClosing then ['/', '>'] else ['>']).head?,
      (isSpace c || c == '/' || c == '>') = true := by
  intro c hc
  have hfirst := List.head?_dropWhile_not (!isMarkupSpace ·) content
  cases hrest : content.dropWhile (!isMarkupSpace ·) with
  | nil =>
    rw [hrest] at hc
    cases selfClosing <;> cases hc <;> rfl
  | cons e rest =>
    rw [hrest] at hc hfirst
    cases hc
    have hspace : isMarkupSpace c = true := by simpa using hfirst
    simp only [isMarkupSpace, isSpace, Bool.or_eq_true] at hspace ⊢
    exact Or.inl (Or.inl (Or.inl hspace))

/-- A scan and a reader see the same name. -/
theorem startToken_name (hread : x.ReadFrom t) (hname : ColonName x.name) :
    (x.startToken t).name = x.name := by
  obtain ⟨content, hwritten⟩ := hread.written
  have htext : (x.startToken t).text.drop 1 = x.name ++ (content.dropWhile (!isMarkupSpace ·) ++
      if x.head.selfClosing then ['/', '>'] else ['>']) := by
    rw [startToken_text hread hwritten, Event.source_start, List.cons_append, List.drop_succ_cons,
      List.drop_zero, ← List.append_assoc]
    exact congrArg (· ++ _) hwritten.content_eq
  have hrest : (x.startToken t).name =
      ((x.startToken t).text.drop 1).takeWhile fun c => !(isSpace c || c == '/' || c == '>') := by
    rw [Token.name]
    cases hself : x.head.selfClosing with
    | true => rw [Tag.startToken_kind_of_selfClosing hself]
    | false => rw [Tag.startToken_kind_of_not_selfClosing hself]
  rw [hrest, htext]
  exact takeWhile_name hname.chars ends_of_head?

/-! ## The fragment of a start tag -/

/-- The content of a start tag without the first part of its name. -/
def unqualified (name content : Text) : Text :=
  localOf name ++ content.dropWhile (!isMarkupSpace ·)

theorem TagHead.Written.qualifier_append {head : TagHead} (h : head.Written t content) :
    qualifier head.name ++ unqualified head.name content = content := by
  rw [unqualified, ← List.append_assoc, SkinMarkup.qualifier_append]
  exact h.content_eq.symm

theorem asElement_of_text {token : Token} {body : Text}
    (h : token.text = '<' :: (qualifier token.name ++ body)) :
    token.asElement =
      if token.kind = .opening then ('<' :: body).dropLast ++ ['/', '>'] else '<' :: body := by
  rw [Token.asElement, Token.nsPrefix?, h, qualifier]
  cases prefixOf token.name with
  | none => rfl
  | some p =>
    have hdrop : ('<' :: (p ++ [':'] ++ body)).drop (p.length + 2) = body := by
      rw [List.drop_succ_cons]
      exact List.drop_left' (by simp)
    dsimp only
    rw [hdrop]

/-- The text of a token without a prefix, as an empty element. -/
theorem asElement_startToken (hread : x.ReadFrom t) (hwritten : x.head.Written t content)
    (hname : ColonName x.name) :
    (x.startToken t).asElement = (Event.empty (unqualified x.name content)).source := by
  have htext : (x.startToken t).text = '<' :: (qualifier (x.startToken t).name ++
      (unqualified x.name content ++ if x.head.selfClosing then ['/', '>'] else ['>'])) := by
    have hcontent : qualifier x.name ++ unqualified x.name content = content :=
      hwritten.qualifier_append
    rw [startToken_name hread hname, ← List.append_assoc, hcontent,
      startToken_text hread hwritten, Event.source_start]
    rfl
  rw [asElement_of_text htext]
  cases hself : x.head.selfClosing with
  | true =>
    rw [Tag.startToken_kind_of_selfClosing hself, if_neg (by decide)]
    rfl
  | false =>
    rw [Tag.startToken_kind_of_not_selfClosing hself, if_pos rfl, if_neg Bool.false_ne_true,
      ← List.cons_append, List.dropLast_concat]
    rfl

/-- The content of a start tag without the first part of its name starts with a
character of a name or a blank. -/
theorem ne_of_mem_head?_unqualified (hname : ColonName x.name) :
    ∀ c ∈ (unqualified x.name content).head?, c ≠ '!' ∧ c ≠ '/' ∧ c ≠ '?' := by
  intro c hc
  cases hlocal : localOf x.name with
  | cons e rest =>
    rw [unqualified, hlocal] at hc
    cases hc
    have hchar : isNameChar c = true :=
      hname.isNameChar_of_mem_localOf (by rw [hlocal]; exact List.mem_cons_self)
    exact ⟨ne_of_isNameChar hchar (by decide), ne_of_isNameChar hchar (by decide),
      ne_of_isNameChar hchar (by decide)⟩
  | nil =>
    have hblank := List.head?_dropWhile_not (!isMarkupSpace ·) content
    rw [unqualified, hlocal, List.nil_append] at hc
    rw [hc] at hblank
    refine ⟨?_, ?_, ?_⟩ <;> (rintro rfl; cases hblank)

theorem next_fragment (hwritten : x.head.Written t content) (hname : ColonName x.name)
    (hne : unqualified x.name content ≠ []) :
    Event.next '<' (unqualified x.name content ++ ['/', '>']) =
      .ok (.empty (unqualified x.name content), []) := by
  have hcontent : qualifier x.name ++ unqualified x.name content = content :=
    hwritten.qualifier_append
  apply Event.next_empty
  · exact ne_of_mem_head?_unqualified hname
  · exact hne
  · obtain ⟨cs, rest, hnext⟩ := hwritten.cut
    have hcut := Event.cutTag_of_next_start hnext
    have hcs := Event.cutTag_eq_some hcut
    have hplain : ∀ c ∈ qualifier x.name, c ≠ '>' ∧ c ≠ '"' ∧ c ≠ '\'' :=
      fun c hc => (plain_of_isNameChar (hname.isNameChar_of_mem_qualifier hc)).2.2
    rw [hcs, ← hcontent, List.append_assoc (qualifier x.name)] at hcut
    -- Leaving out the qualifier moves no quote, and the end stays where it is.
    have hinner := Event.cutTag_of_append hplain hcut
    have hmore := Event.cutTag_append hinner
    cases hself : x.head.selfClosing with
    | true =>
      have := hmore ['>']
      rw [hself] at this
      simpa [Event.cutTag] using this
    | false =>
      have := hmore ['/', '>']
      rw [hself] at this
      simpa [Event.cutTag] using this

/-- The text of a token says the same about states as the tag. -/
theorem membership_fragment (hread : x.ReadFrom t) (hwritten : x.head.Written t content)
    (hname : ColonName x.name) (hne : unqualified x.name content ≠ []) :
    ∃ document, parse ParseOptions.brief (x.startToken t).asElement = .ok document ∧
      Membership.ofTag document.root = Membership.ofTag x := by
  have hattributes := hwritten.attributes
  have hcontent : qualifier x.name ++ unqualified x.name content = content :=
    hwritten.qualifier_append
  have hspace : ∀ {c : Char}, isNameChar c = true → (!isMarkupSpace c) = true := fun hc => by
    rw [(plain_of_isNameChar hc).2.1]
    rfl
  -- Both contents have the same text after their names.
  have hdrop : (unqualified x.name content).dropWhile (!isMarkupSpace ·) =
      content.dropWhile (!isMarkupSpace ·) := by
    have hqualifier : ∀ c ∈ qualifier x.name, (!isMarkupSpace c) = true :=
      fun c hc => hspace (hname.isNameChar_of_mem_qualifier hc)
    calc (unqualified x.name content).dropWhile (!isMarkupSpace ·)
        = (qualifier x.name ++ unqualified x.name content).dropWhile (!isMarkupSpace ·) :=
          (List.dropWhile_append_of_pos hqualifier).symm
      _ = content.dropWhile (!isMarkupSpace ·) := by rw [hcontent]
  have hlocal : WrittenAttribute.elementName (unqualified x.name content) = localOf x.name := by
    rw [WrittenAttribute.elementName, unqualified]
    refine takeWhile_append_eq_left (fun c hc => hspace (hname.isNameChar_of_mem_localOf hc)) ?_
    intro c hc
    have hfirst := List.head?_dropWhile_not (!isMarkupSpace ·) content
    rw [hc] at hfirst
    exact hfirst
  obtain ⟨attributes, hfragment, hentries⟩ := attributesOf_congr hdrop hattributes
  obtain ⟨root, hparse, hroot, hrootAttributes⟩ :=
    exists_parse_fragment ParseOptions.brief rfl (next_fragment hwritten hname hne) hfragment
  refine ⟨⟨root, []⟩, by rw [asElement_startToken hread hwritten hname, hparse], ?_⟩
  have hvalue : ∀ word, root.head.value? word = x.head.value? word := by
    intro word
    rw [TagHead.value?, TagHead.value?, hrootAttributes]
    exact value_find?_congr word hentries
  have hlocalName : root.localName = x.localName := by
    rw [Tag.localName, hroot, hlocal]
    exact hname.localOf_localOf
  rw [Membership.ofTag, Membership.ofTag, hlocalName, hvalue, hvalue]

/-! ## Agreement -/

/-- A tag whose token does not mention states says nothing about them. -/
theorem unscoped_of_not_mentionsStates (hread : x.ReadFrom t)
    (h : (x.startToken t).mentionsStates = false) : x.Unscoped := by
  obtain ⟨content, hwritten⟩ := hread.written
  have hattributes := hwritten.attributes
  rw [Token.mentionsStates, startToken_text hread hwritten, Event.source_start] at h
  simp only [Bool.or_eq_false_iff] at h
  obtain ⟨⟨hinclude, hexclude⟩, hdot⟩ := h
  have hpart : content <:+: '<' :: content ++ if x.head.selfClosing then ['/', '>'] else ['>'] :=
    ⟨['<'], _, rfl⟩
  have hnone : ∀ word, containsWord word
      ('<' :: content ++ if x.head.selfClosing then ['/', '>'] else ['>']) = false →
        x.head.value? word = none := by
    intro word hword
    rw [TagHead.value?, Option.map_eq_none_iff, Attribute.find?, List.find?_eq_none]
    intro a ha hname
    have hin := (name_of_mem_attributesOf hattributes ha).trans hpart
    rw [of_decide_eq_true hname, ← containsWord_iff, hword] at hin
    cases hin
  refine ⟨hnone _ hinclude, hnone _ hexclude, ?_⟩
  intro hmem
  have hin : '.' ∈ content := by
    rw [hwritten.content_eq, ← qualifier_append x.head.name]
    exact List.mem_append_left _ (List.mem_append_right _ hmem)
  rw [List.contains_eq_mem, decide_eq_false_iff_not] at hdot
  exact hdot (hpart.subset hin)

/-- A tag with nothing but a prefix in its start tag says nothing about states. -/
theorem unscoped_of_unqualified_eq_nil (hwritten : x.head.Written t content)
    (h : unqualified x.name content = []) : x.Unscoped := by
  obtain ⟨hlocal, hrest⟩ := List.append_eq_nil_iff.mp h
  have hattributes := hwritten.attributes
  have hdrop : ([] : Text).dropWhile (!isMarkupSpace ·) = content.dropWhile (!isMarkupSpace ·) :=
    hrest.symm
  obtain ⟨attributes, hnone, hentries⟩ : ∃ attributes, attributesOf 0 [] [] = .ok attributes ∧
      attributes.map Attribute.entry = x.head.attributes.map Attribute.entry :=
    attributesOf_congr hdrop hattributes
  have hempty : attributes = [] := by
    have hok : attributesOf 0 [] [] = .ok [] := by
      simp [attributesOf, WrittenAttribute.readAll, WrittenAttribute.readFrom]
    cases hok.symm.trans hnone
    rfl
  have hattributes : x.head.attributes = [] := by
    rw [hempty] at hentries
    exact List.map_eq_nil_iff.mp hentries.symm
  have hdot : '.' ∉ localOf x.head.name := by
    change '.' ∉ localOf x.name
    rw [hlocal]
    exact List.not_mem_nil
  exact ⟨by rw [TagHead.value?, hattributes]; rfl, by rw [TagHead.value?, hattributes]; rfl, hdot⟩

/-- A token whose text can be read says the same about states as the tag. If it cannot
be read, the tag says nothing about them. -/
theorem membership_or_unscoped (hread : x.ReadFrom t) (hname : ColonName x.name) :
    (∃ document, parse ParseOptions.brief (x.startToken t).asElement = .ok document ∧
      Membership.ofTag document.root = Membership.ofTag x) ∨
    (∃ failure, parse ParseOptions.brief (x.startToken t).asElement = .error failure) ∧
      x.Unscoped := by
  obtain ⟨content, hwritten⟩ := hread.written
  by_cases hne : unqualified x.name content = []
  · right
    -- The text is that of an end tag without a name.
    have htext : (x.startToken t).asElement = ['<', '/', '>'] := by
      rw [asElement_startToken hread hwritten hname, hne]
      rfl
    have hfails : (parse ParseOptions.brief ['<', '/', '>']).toOption.isNone = true := by
      decide +kernel
    refine ⟨?_, unscoped_of_unqualified_eq_nil hwritten hne⟩
    rw [htext]
    cases hparse : parse ParseOptions.brief ['<', '/', '>'] with
    | error failure => exact ⟨failure, rfl⟩
    | ok document =>
      rw [hparse] at hfails
      cases hfails
  · left
    exact membership_fragment hread hwritten hname hne

theorem isStart_startToken (t : Text) (x : Tag) : (x.startToken t).isStart = true := by
  rw [Token.isStart]
  cases hself : x.head.selfClosing with
  | true => rw [Tag.startToken_kind_of_selfClosing hself]; rfl
  | false => rw [Tag.startToken_kind_of_not_selfClosing hself]; rfl

/-- **A token is visible where its tag is, and everywhere if it has the working prefix.** -/
theorem isVisible_startToken_eq (d : Dialect) (state : Option Text) (hread : x.ReadFrom t)
    (hname : ColonName x.name) :
    (x.startToken t).isVisible d state =
      (decide (prefixOf x.name = some d.workingPrefix) || x.isVisible d state) := by
  rw [Token.isVisible, Tag.isVisible]
  cases activeState state with
  | none => exact (Bool.or_true _).symm
  | some state =>
    dsimp only
    rw [isStart_startToken, Bool.true_and, Token.nsPrefix?, startToken_name hread hname]
    cases hmention : (x.startToken t).mentionsStates with
    | false =>
      rw [(unscoped_of_not_mentionsStates hread hmention).visibleIn, Bool.or_true]
      rfl
    | true =>
      -- A token with the working prefix is not read at all.
      by_cases hworking : prefixOf x.name = some d.workingPrefix
      · simp [hworking]
      · rcases membership_or_unscoped hread hname with
          ⟨document, hparse, hmember⟩ | ⟨⟨failure, hparse⟩, hunscoped⟩
        · simp [hworking, hparse, hmember]
        · simp [hworking, hparse, hunscoped.visibleIn]

/-- **A tag and its token are visible in the same states.** -/
theorem isVisible_startToken {d : Dialect} {state : Option Text} (hread : x.ReadFrom t)
    (hname : isName x.name = true)
    (hworking : prefixOf x.name = some d.workingPrefix → x.Unscoped) :
    (x.startToken t).isVisible d state = x.isVisible d state := by
  rw [isVisible_startToken_eq d state hread (.of_isName hname)]
  by_cases hqualified : prefixOf x.name = some d.workingPrefix
  · have hvisible : x.isVisible d state = true := by
      rw [Tag.isVisible]
      cases activeState state with
      | none => rfl
      | some state => exact (hworking hqualified).visibleIn d state
    rw [hvisible, Bool.or_true]
  · rw [decide_eq_false hqualified, Bool.false_or]

end

/-! ## Documents -/

variable {t : Text} {root : Tag}

/-- **Tokens and tags of a document are visible alike, but for the working prefix.** In
a document without a byte order mark whose element names have at most one colon, the
token of a start tag is visible in every state if it has the working prefix, and
otherwise exactly where the tag is. Any token that a scan finds at the start tag is that
token, and a scan of a plain text finds it. -/
theorem startToken_isVisible_of_parseStrict (hmark : t.head? ≠ some Source.mark)
    (h : parseStrict t = .ok root) (hnames : ∀ x ∈ root.preorder, ColonName x.name) (d : Dialect)
    (state : Option Text) :
    ∀ x ∈ root.preorder,
      (x.startToken t).isVisible d state =
        (decide (prefixOf x.name = some d.workingPrefix) || x.isVisible d state) ∧
      (∀ token ∈ (scan t).elements, token.mark = x.startMark → token = x.startToken t) ∧
      (Plain t → x.startToken t ∈ (scan t).elements) := by
  intro x hx
  refine ⟨?_, ?_, ?_⟩
  · have hread := Tag.everywhere_singleton.mp (readFrom_of_parseStrict hmark h) x hx
    exact isVisible_startToken_eq d state hread (hnames x hx)
  · intro token htoken hstands
    have hslice := Scan.slice?_of_mem_tokens (Scan.mem_tokens_of_mem_elements htoken)
    rw [← Token.ofMark_mark hslice, hstands]
    rfl
  · intro hplain
    rw [elements_of_parseStrict hplain h]
    have hmem : x ∈ Tag.preorderAll [root] := Tag.mem_preorderAll_of_mem_preorder List.mem_cons_self hx
    exact (leafy_of_parseStrict hmark h).startToken_mem_tokens x hmem

/-- Tags of five kinds: with the working prefix, pinned, in a list, with an empty prefix
and with nothing behind the colon. -/
theorem startToken_isVisible_of_prefixes :
    let t := "<e:S><w:a.up/><a.up/><:b includeIn='up'>.</:b><c.d:\nexcludeFrom='up'/><c.d:/></e:S>".toList
    let up := some ['u', 'p']
    t.head? ≠ some Source.mark ∧ Plain t ∧ ∃ root, parseStrict t = .ok root ∧
      (∀ x ∈ root.preorder, ColonName x.name) ∧ root.preorder.length = 6 ∧
      ∀ x ∈ root.preorder,
        (x.startToken t).isVisible Dialect.standard up =
          (decide (prefixOf x.name = some Dialect.standard.workingPrefix) ||
            x.isVisible Dialect.standard up) ∧
        x.startToken t ∈ (scan t).elements := by
  intro t up
  have hplain : Plain t := by decide +kernel
  have hany : ((parseStrict t).toOption.any fun root =>
      decide ((∀ x ∈ root.preorder, ColonName x.name) ∧ root.preorder.length = 6)) = true := by
    decide +kernel
  obtain ⟨root, hroot, hproperties⟩ := exists_of_any_toOption hany
  obtain ⟨hnames, hlength⟩ := of_decide_eq_true hproperties
  refine ⟨hplain.unmarked, hplain, root, hroot, hnames, hlength, ?_⟩
  intro x hx
  obtain ⟨hvisible, -, hmem⟩ :=
    startToken_isVisible_of_parseStrict hplain.unmarked hroot hnames Dialect.standard up x hx
  exact ⟨hvisible, hmem hplain⟩

/-- A tag with the working prefix in a state that it does not list: the token is visible,
the tag is not. -/
theorem not_isVisible_of_workingPrefix :
    let t := "<w:R includeIn=\"a\"/>".toList
    let state := some ['b']
    t.head? ≠ some Source.mark ∧ containsWord "<!DOCTYPE".toList t = false ∧ '\\' ∉ t ∧
      ∃ root, parseStrict t = .ok root ∧ isName root.name = true ∧
        (∀ a ∈ root.head.attributes, isName a.name = true) ∧ root.tags.length = 0 ∧
        root.startToken t ∈ (scan t).elements ∧
        (root.startToken t).isVisible Dialect.standard state ≠
          root.isVisible Dialect.standard state := by
  intro t state
  have hany : ((parseStrict t).toOption.any fun root =>
      decide (isName root.name = true ∧ (∀ a ∈ root.head.attributes, isName a.name = true) ∧
        root.tags.length = 0 ∧ root.startToken t ∈ (scan t).elements ∧
        (root.startToken t).isVisible Dialect.standard state ≠
          root.isVisible Dialect.standard state)) = true := by
    decide +kernel
  obtain ⟨root, hroot, hproperties⟩ := exists_of_any_toOption hany
  exact ⟨by decide, by decide +kernel, by decide, root, hroot, of_decide_eq_true hproperties⟩

end SkinMarkup
