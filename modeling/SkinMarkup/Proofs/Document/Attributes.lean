import SkinMarkup.Proofs.Document.Lenient
import SkinMarkup.Proofs.Document.Reading
import SkinMarkup.Proofs.TagText.Spans

/-!
# Where the attributes of a tree stand

Names and values of attributes come from the reader of a start tag's content, and
their places from the division of its text, matched by the names. The two go through
a start tag in step as long as no name has a character that only one of them stops at
(`TagHead.Written.exists_startTag`). Then every attribute is found, the one that was
read, and it stands in the text as it says: `attributesInPlace_of_parse`.
-/

namespace SkinMarkup

/-! ## Trees of texts with issues -/

variable {t : Text} {x : Tag}

/-- Closing the open tags changes nothing that they have from the text. -/
theorem Builder.readFrom_closeAll (stop : Nat) (inner : Option Tag) {opened : List Tag}
    (hself : ∀ tag ∈ opened, tag.head.selfClosing = false)
    (hopened : Tag.Everywhere (Tag.ReadFrom t) opened)
    (hinner : Tag.Everywhere (Tag.ReadFrom t) inner.toList) :
    Tag.Everywhere (Tag.ReadFrom t) (closeAll stop inner opened).toList := by
  induction opened generalizing inner with
  | nil => exact hinner
  | cons tag others ih =>
    obtain ⟨⟨htag, hbelow⟩, hothers⟩ := Tag.everywhere_cons.mp hopened
    obtain ⟨hopen, hself⟩ := List.forall_mem_cons.mp hself
    have hfull : Tag.ReadFrom t { tag with tags := tag.tags ++ inner.toList } := by
      refine ⟨htag.written, ?_⟩
      intro hclosed
      cases hopen.symm.trans hclosed
    refine ih _ hself hothers (Tag.everywhere_cons.mpr ⟨⟨hfull.closeTag hopen stop stop, ?_⟩, ?_⟩)
    · exact Tag.everywhere_append.mpr ⟨hbelow, hinner⟩
    · exact Tag.everywhere_nil _

/-- **Every tag of a tree has been read from the text,** whatever issues it has. -/
theorem readFrom_rootOf (hmark : t.head? ≠ some Source.mark) :
    Source.rootOf t = Tag.unplaced [] ∨ ∀ x ∈ (Source.rootOf t).preorder, x.ReadFrom t := by
  obtain ⟨-, before, rest, -, hregular, hread⟩ := Source.build_induction
    (fun _ b => b.Regular ∧ b.Everywhere (Tag.ReadFrom t)) hmark
    ⟨Builder.regular_start, Tag.everywhere_nil _, Tag.everywhere_nil _⟩
    (by
      intro before c cs rest event b next ht hnext hinv hstep
      have hstep := Builder.step_cases hstep
      exact ⟨hstep.regular hinv.1, hstep.readFrom rfl ht hnext hinv.1 hinv.2⟩)
  have hclosed := Builder.readFrom_closeAll (width t) none hregular.notEmpty
    hread.2 (Tag.everywhere_nil _)
  have hroot : Tag.Everywhere (Tag.ReadFrom t)
      ((Source.ofText t).build.1.rootClosedAt (width t)).toList := by
    rw [Builder.rootClosedAt]
    cases hr : (Source.ofText t).build.1.root with
    | none => exact hclosed
    | some r => simpa [hr] using hread.1
  rw [Source.rootOf]
  cases hr : (Source.ofText t).build.1.rootClosedAt (width t) with
  | none =>
    left
    rfl
  | some root =>
    right
    rw [hr] at hroot
    exact Tag.everywhere_singleton.mp hroot

/-! ## Reader and division in step -/

/-- An attribute that comes from a piece of a tag at byte `offset`: it has the name and
the value of the piece and stands where the piece does. -/
structure WrittenPiece.Gives (offset : Nat) (e : WrittenPiece × PieceSpans) (a : Attribute) :
    Prop where
  name : a.name = e.1.name
  value : unescape e.1.value = .ok a.value
  nameStart : a.nameStart = offset + e.2.name.start
  start : a.start = offset + e.2.value.start
  stop : a.stop = offset + e.2.value.stop

/-- An attribute that was read and found in the division stands where it was found. -/
theorem WrittenAttribute.gives_of_place {offset : Nat} {tag : TagText} {w : WrittenAttribute}
    {e : WrittenPiece × PieceSpans} {a : Attribute} (hentry : w.entry = e.1.entry)
    (hfind : (tag.attributes.find? fun x => x.1.name = e.1.name) = some e)
    (h : w.place offset tag = .ok a) : WrittenPiece.Gives offset e a := by
  obtain ⟨hname, hvalue⟩ := Prod.mk.inj hentry
  unfold place at h
  split at h
  · cases h
  · next value hunescaped =>
    rw [hname, hfind] at h
    cases h
    exact ⟨rfl, hvalue ▸ hunescaped, rfl, rfl, rfl⟩

theorem forall₂_gives_of_mapM_place {offset : Nat} {tag : TagText}
    {found : List (WrittenPiece × PieceSpans)} {written : List WrittenAttribute}
    {attributes : List Attribute}
    (hfind : ∀ e ∈ found, (tag.attributes.find? fun x => x.1.name = e.1.name) = some e)
    (hentries : written.map WrittenAttribute.entry = found.map (·.1.entry))
    (h : written.mapM (WrittenAttribute.place offset tag) = .ok attributes) :
    List.Forall₂ (WrittenPiece.Gives offset) found attributes := by
  induction found generalizing written attributes with
  | nil =>
    obtain rfl := List.map_eq_nil_iff.mp hentries
    cases h
    exact .nil
  | cons e found ih =>
    cases written with
    | nil => cases hentries
    | cons w written =>
      obtain ⟨hentry, hentries⟩ := List.cons.inj hentries
      obtain ⟨a, others, hplace, hothers, rfl⟩ := mapM_place_cons_eq_ok.mp h
      obtain ⟨hfirst, hfind⟩ := List.forall_mem_cons.mp hfind
      exact .cons (WrittenAttribute.gives_of_place hentry hfirst hplace) (ih hfind hentries hothers)

/-- A start tag whose division gives the attributes of a head. -/
structure TagHead.Divided (head : TagHead) (tag : StartTag) : Prop where
  lexed : ∀ p ∈ tag.pieces, p.Lexed
  gives : List.Forall₂ (WrittenPiece.Gives head.start)
    (WrittenPiece.withSpans (width ('<' :: tag.name)) tag.pieces) head.attributes

/-- **A start tag is divided into the attributes that were read from it.** -/
theorem TagHead.Written.exists_startTag {head : TagHead} {content : Text}
    (h : head.Written t content) (hname : Undisputed head.name)
    (hnames : ∀ a ∈ head.attributes, Undisputed a.name) :
    ∃ tag : StartTag, tag.content = content ∧ head.Divided tag := by
  obtain ⟨written, hread, hplaced⟩ := attributesOf_eq_ok.mp h.attributes
  obtain ⟨pieces, blanks, hrest, hmarked, hblanks, hentries, hnodup⟩ :=
    WrittenAttribute.exists_pieces_of_readFrom hread List.nodup_nil
  let tag : StartTag := ⟨head.name, pieces, blanks⟩
  have hcontent : tag.content = content := by
    rw [StartTag.content, ← hrest]
    exact h.content_eq.symm
  have hpieceNames := WrittenAttribute.map_name_of_map_entry hentries
  have hlexed : ∀ p ∈ pieces, p.Lexed := by
    intro p hp
    refine (hmarked p hp).lexed ?_
    have hmem : p.name ∈ head.attributes.map (·.name) := by
      rw [map_name_of_mapM_place hplaced, ← hpieceNames]
      exact List.mem_map_of_mem hp
    obtain ⟨a, ha, hsame⟩ := List.mem_map.mp hmem
    exact hsame ▸ hnames a ha
  have hspaces : ∀ c ∈ head.name, isMarkupSpace c = false := by
    intro c hc
    rw [h.name] at hc
    simpa using List.mem_takeWhile_imp hc
  have hfirst := WrittenAttribute.lead_ne_nil_of_dropWhile hrest hmarked
  have hdivided : TagText.ofText (Event.start head.selfClosing content).source =
      ⟨'<' :: head.name, pieces, blanks ++ closer head.selfClosing⟩ := by
    rw [← hcontent, StartTag.source_start]
    exact StartTag.ofText_text_of_lexed (t := tag) (hname.unended hspaces) hlexed hfirst
      hblanks.spaces _
  let division : TagText :=
    ⟨'<' :: head.name, pieces, blanks ++ closer head.selfClosing⟩
  have hdistinct : (division.pieces.map (·.name)).Nodup := by
    rw [hpieceNames]
    simpa using hnodup
  refine ⟨tag, hcontent, hlexed, ?_⟩
  rw [hdivided] at hplaced
  have hfind := fun e => TagText.find?_attributes hdistinct (e := e)
  refine forall₂_gives_of_mapM_place hfind ?_ hplaced
  change _ = List.map (WrittenPiece.entry ∘ Prod.fst) _
  rw [← hentries, ← List.map_map, WrittenPiece.map_fst_withSpans]

/-! ## Attributes in the text -/

theorem splitAt?_eq_some {n : Nat} {s r : Text} (h : splitAt? n t = some (s, r)) :
    t = s ++ r ∧ width s = n := by
  fun_induction splitAt? n t generalizing s with
  | case1 t =>
    cases h
    exact ⟨rfl, rfl⟩
  | case2 => cases h
  | case3 n c cs hle ih =>
    obtain ⟨⟨front, back⟩, hsplit, heq⟩ := Option.map_eq_some_iff.mp h
    cases heq
    obtain ⟨rfl, hwidth⟩ := ih hsplit
    refine ⟨rfl, ?_⟩
    rw [width_cons, hwidth]
    omega
  | case4 => cases h

theorem exists_of_slice? {start stop : Nat} {middle : Text}
    (h : slice? start stop t = some middle) :
    ∃ before after, t = before ++ middle ++ after ∧ width before = start ∧
      width middle = stop - start := by
  simp only [slice?, Option.bind_eq_bind, Option.bind_eq_some_iff, Prod.exists] at h
  obtain ⟨before, rest, hstart, inside, after, hstop, hmiddle⟩ := h
  cases hmiddle
  obtain ⟨rfl, hbefore⟩ := splitAt?_eq_some hstart
  obtain ⟨rfl, hwidth⟩ := splitAt?_eq_some hstop
  exact ⟨before, after, (List.append_assoc _ _ _).symm, hbefore, hwidth⟩

/-- An attribute that stands in a text where it says: its name is there, and between two
equal quotes there is a text without that quote from which its value is read. -/
structure Attribute.InPlace (t : Text) (a : Attribute) : Prop where
  placed : a.isUnplaced = false
  name : slice? a.nameStart (a.nameStart + width a.name) t = some a.name
  value : ∃ q raw, (q = '"' ∨ q = '\'') ∧ slice? (a.start - 1) a.start t = some [q] ∧
    slice? a.stop (a.stop + 1) t = some [q] ∧ slice? a.start a.stop t = some raw ∧
    q ∉ raw ∧ unescape raw = .ok a.value

/-- The attributes of a tag stand in its start tag, one behind the other. -/
structure TagHead.AttributesInPlace (t : Text) (head : TagHead) : Prop where
  inPlace : ∀ a ∈ head.attributes, a.InPlace t
  inside : ∀ a ∈ head.attributes, head.start < a.nameStart ∧
    a.nameStart + width a.name < a.start ∧ a.start ≤ a.stop ∧ a.stop < head.startTagEnd
  inOrder : head.attributes.Pairwise fun a b => a.stop < b.nameStart

/-- An attribute stands in its place if the text falls into parts of which one is its name
and one, between quotes, its value, and its offsets are those of the parts. -/
theorem Attribute.inPlace_of_split {a : Attribute} {front assign raw rest : Text} {q : Char}
    (ht : t = front ++ a.name ++ assign ++ [q] ++ raw ++ [q] ++ rest) (hfront : 0 < width front)
    (hq : q = '"' ∨ q = '\'') (hraw : q ∉ raw) (hvalue : unescape raw = .ok a.value)
    (hnameStart : a.nameStart = width front)
    (hstart : a.start = a.nameStart + width a.name + width assign + 1)
    (hstop : a.stop = a.start + width raw) : a.InPlace t := by
  have hone := utf8Size_quote hq
  refine ⟨?_, ?_, q, raw, hq, ?_, ?_, ?_, hraw, hvalue⟩
  · have hne : a.nameStart ≠ 0 := by omega
    simp [Attribute.isUnplaced, hne]
  · refine slice?_of_split front (assign ++ [q] ++ raw ++ [q] ++ rest) ?_ hnameStart rfl
    rw [ht]
    simp
  · refine slice?_of_split (front ++ a.name ++ assign) (raw ++ [q] ++ rest) ?_ ?_ ?_
    · rw [ht]
      simp
    · rw [hstart, hnameStart, width_append, width_append, Nat.add_sub_cancel]
    · rw [width_cons, width_nil, hone]
      omega
  · refine slice?_of_split (front ++ a.name ++ assign ++ [q] ++ raw) rest ht ?_ ?_
    · simp only [width_append, width_cons, width_nil, hone]
      omega
    · rw [width_cons, width_nil, hone]
  · refine slice?_of_split (front ++ a.name ++ assign ++ [q]) ([q] ++ rest) ?_ ?_ hstop
    · rw [ht]
      simp
    · simp only [width_append, width_cons, width_nil, hone]
      omega

section

variable {head : TagHead} {tag : StartTag} {before after : Text} {e : WrittenPiece × PieceSpans}
  {a : Attribute} {selfClosing : Bool}

/-- A piece of a start tag is a part of its text and stands where its spans say. -/
theorem WrittenPiece.Lexed.exists_split {p : WrittenPiece} {s : PieceSpans} (hlexed : p.Lexed)
    (h : (p, s) ∈ withSpans (width ('<' :: tag.name)) tag.pieces) (selfClosing : Bool) :
    ∃ front q rest, (q = '"' ∨ q = '\'') ∧ q ∉ p.value ∧ 0 < width front ∧
      tag.text selfClosing =
        front ++ p.name ++ p.assign ++ [q] ++ p.value ++ [q] ++ rest ∧
      s.name.start = width front ∧
      s.value.start = width front + width p.name + width p.assign + 1 ∧
      s.value.stop = s.value.start + width p.value := by
  obtain ⟨l, r, hpieces, rfl⟩ := mem_withSpans_iff.mp h
  obtain ⟨m, n, q, hsource, -, -, hassign, hquote, hq, hvalue⟩ := hlexed.exists_source
  have hone := utf8Size_quote hq
  have hstart : (p.spans (width ('<' :: tag.name) + width (l.flatMap source))).name.start =
      width ('<' :: tag.name ++ l.flatMap source ++ p.lead) := by
    simp only [spans, hlexed.skipped, width_append, width_nil, Nat.add_zero]
  refine ⟨'<' :: tag.name ++ l.flatMap source ++ p.lead, q,
    r.flatMap source ++ tag.blanks ++ closer selfClosing, hq, hvalue, ?_, ?_, hstart, ?_, rfl⟩
  · rw [List.cons_append, List.cons_append, width_cons]
    exact Nat.add_pos_left '<'.utf8Size_pos _
  · rw [StartTag.text, StartTag.content, hpieces, hassign]
    simp [hsource]
  · rw [← hstart, spans]
    simp only [hquote, Option.toList_some, width_cons, width_nil, hone]

/-- What a piece of a start tag gives stands in the text of the tag. -/
theorem WrittenPiece.Gives.inPlace (h : Gives (width before) e a)
    (he : e ∈ withSpans (width ('<' :: tag.name)) tag.pieces) (hlexed : e.1.Lexed)
    (ht : t = before ++ tag.text selfClosing ++ after) :
    a.InPlace t ∧ width before < a.nameStart ∧ a.nameStart + width a.name < a.start ∧
      a.start ≤ a.stop ∧ a.stop < width before + width (tag.text selfClosing) := by
  obtain ⟨front, q, rest, hq, hvalue, hpos, htext, hnameStart, hstart, hstop⟩ :=
    hlexed.exists_split he selfClosing
  have hname := h.name
  have haName := h.nameStart
  have haStart := h.start
  have haStop := h.stop
  have hwidth := congrArg width htext
  have hone : width [q] = 1 := utf8Size_quote hq
  simp only [width_append, hone] at hwidth
  rw [← hname] at hstart hwidth
  refine ⟨?_, ?_, ?_, ?_, ?_⟩
  · have hsplit : t = before ++ front ++ a.name ++ e.1.assign ++ [q] ++ e.1.value ++ [q] ++
        (rest ++ after) := by
      rw [ht, htext, hname]
      simp
    have hfront : width (before ++ front) = width before + width front := width_append _ _
    refine Attribute.inPlace_of_split hsplit ?_ hq hvalue h.value ?_ ?_ ?_ <;> omega
  all_goals omega

end

/-- **The attributes of a start tag stand in its text.** -/
theorem Tag.ReadFrom.attributesInPlace (h : x.ReadFrom t) (hname : Undisputed x.name)
    (hnames : ∀ a ∈ x.head.attributes, Undisputed a.name) : x.head.AttributesInPlace t := by
  obtain ⟨content, hwritten⟩ := h.written
  obtain ⟨tag, rfl, hlexed, hgives⟩ := hwritten.exists_startTag hname hnames
  obtain ⟨before, after, ht, hbefore, hwidth⟩ := exists_of_slice? hwritten.source
  rw [StartTag.source_start] at ht hwidth
  rw [← hbefore] at hgives
  have hall := forall_mem_of_forall₂ hgives fun e he a hgive =>
    hgive.inPlace he (hlexed e.1 (WrittenPiece.mem_of_mem_withSpans he)) ht
  refine ⟨fun a ha => (hall a ha).1, ?_, ?_⟩
  · intro a ha
    obtain ⟨-, hfirst, hstart, hle, hlast⟩ := hall a ha
    exact ⟨by omega, hstart, hle, by omega⟩
  · refine pairwise_of_forall₂ hgives (WrittenPiece.pairwise_withSpans hlexed _) ?_
    intro e e' a a' hgive hgive' hlt
    rw [hgive.stop, hgive'.nameStart]
    omega

/-! ## Documents -/

/-- **The places of attributes are those of the attributes that were read.** In the tree
of a text without a byte order mark, whatever the options, take any tag of which neither
the name nor those of its attributes have one of the characters `= > / ?` or a form feed.
All of its attributes stand inside its start tag, one behind the other. At each place
stands the name, and then between two equal quotes the text from which the value was
read. -/
theorem attributesInPlace_of_parse {options : ParseOptions} {document : Document}
    (hmark : t.head? ≠ some Source.mark) (hparse : parse options t = .ok document) :
    ∀ x ∈ document.root.preorder, Undisputed x.name →
      (∀ a ∈ x.head.attributes, Undisputed a.name) → x.head.AttributesInPlace t := by
  intro x hx hname hnames
  rw [root_eq_of_parse hmark hparse] at hx
  rcases readFrom_rootOf hmark with hnone | hread
  · rw [hnone, Tag.preorder_eq] at hx
    obtain rfl := List.mem_singleton.mp hx
    refine ⟨?_, ?_, List.Pairwise.nil⟩ <;> rintro a ⟨⟩
  · exact (hread x hx).attributesInPlace hname hnames

/-- A text that breaks off behind a start tag in which quotes are parts of names and one
attribute follows another without a blank. -/
theorem attributesInPlace_of_quotes :
    let t := "<e a'=\"1\" b= '&lt;\"'c\"='>'>x<f".toList
    t.head? ≠ some Source.mark ∧ ∃ document, parse ⟨false, true, false⟩ t = .ok document ∧
      Undisputed document.root.name ∧ (∀ a ∈ document.root.head.attributes, Undisputed a.name) ∧
      document.root.head.attributes.map (·.value) = [['1'], ['<', '"'], ['>']] ∧
      document.root.head.AttributesInPlace t := by
  intro t
  have hmark : t.head? ≠ some Source.mark := by decide
  have hany : (parse ⟨false, true, false⟩ t).toOption.any (fun document =>
      decide (Undisputed document.root.name ∧
        (∀ a ∈ document.root.head.attributes, Undisputed a.name) ∧
        document.root.head.attributes.map (·.value) = [['1'], ['<', '"'], ['>']])) = true := by
    decide +kernel
  obtain ⟨document, hparse, hproperties⟩ := exists_of_any_toOption hany
  obtain ⟨hname, hnames, hvalues⟩ := of_decide_eq_true hproperties
  exact ⟨hmark, document, hparse, hname, hnames, hvalues, attributesInPlace_of_parse hmark hparse
    document.root (Tag.mem_preorder_self _) hname hnames⟩

end SkinMarkup
